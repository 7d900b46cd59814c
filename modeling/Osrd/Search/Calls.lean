import Osrd.Search.Context
import Osrd.Lib.Partial

/-! Calls of the functions of the search language: which function is found, what its signature accepts, and
    what its arguments become. -/

namespace Osrd.Search

open Partial Signature List

/-! ### Signatures -/

theorem typecheckFrom_cons {spec : TypeSpec} {fargs args : List TypeSpec} {i : ℕ}
    (hvariadic : ∀ t, spec ≠ .variadic t) (h : typecheckFrom i (spec :: fargs) args = .ok ()) :
    ∃ arg rest, args = arg :: rest ∧ spec.isSupertypeSpec arg = some true ∧
      typecheckFrom (i + 1) fargs rest = .ok () := by
  cases args with
  | nil =>
    rw [typecheckFrom] at h
    · cases h
    · exact fun t ht => hvariadic t ht
  | cons arg rest =>
    rw [typecheckFrom] at h
    · split at h
      · cases h
      · cases h
      · next hsuper => exact ⟨arg, rest, rfl, hsuper, h⟩
    · exact fun t ht => hvariadic t ht

variable {types : List TypeSpec}

theorem typecheckArgs_one {spec result : TypeSpec} (hvariadic : ∀ t, spec ≠ .variadic t)
    (h : typecheckArgs ⟨[spec], result⟩ types = .ok ()) :
    ∃ type, types = [type] ∧ spec.isSupertypeSpec type = some true := by
  obtain ⟨type, rest, rfl, hsuper, h⟩ := typecheckFrom_cons hvariadic h
  cases rest with
  | cons _ _ => cases h
  | nil => exact ⟨type, rfl, hsuper⟩

theorem typecheckArgs_two {spec1 spec2 result : TypeSpec} (h1 : ∀ t, spec1 ≠ .variadic t)
    (h2 : ∀ t, spec2 ≠ .variadic t) (h : typecheckArgs ⟨[spec1, spec2], result⟩ types = .ok ()) :
    ∃ type1 type2, types = [type1, type2] ∧ spec1.isSupertypeSpec type1 = some true ∧
      spec2.isSupertypeSpec type2 = some true := by
  obtain ⟨type1, rest, rfl, hsuper1, h⟩ := typecheckFrom_cons h1 h
  obtain ⟨type2, rest, rfl, hsuper2, h⟩ := typecheckFrom_cons h2 h
  cases rest with
  | cons _ _ => cases h
  | nil => exact ⟨type1, type2, rfl, hsuper1, hsuper2⟩

theorem typecheckVariadic_forall {expected : TypeSpec} : ∀ {args : List TypeSpec},
    typecheckVariadic expected args = .ok () → ∀ arg ∈ args, expected.isSupertypeSpec arg = some true
  | [], _ => by simp
  | arg :: args, h => by
    rw [typecheckVariadic] at h
    split at h
    · cases h
    · cases h
    · next hsuper => exact forall_mem_cons.mpr ⟨hsuper, typecheckVariadic_forall h⟩

theorem findOverload_spec {function : QueryFunction} : ∀ {functions : List QueryFunction},
    QueryContext.findOverload types functions = .ok (some function) →
    function ∈ functions ∧ function.signature.typecheckArgs types = .ok ()
  | [], h => nomatch h
  | f :: functions, h => by
    rw [QueryContext.findOverload] at h
    split at h
    · next hcheck =>
      cases Except.ok.inj h
      exact ⟨mem_cons_self, hcheck⟩
    · cases h
    · obtain ⟨hmem, hcheck⟩ := findOverload_spec h
      exact ⟨mem_cons_of_mem _ hmem, hcheck⟩

/-- The function that is called is one of the context that accepts the arguments. -/
theorem findFunction_spec {ctx : QueryContext} {name : String} {function : QueryFunction}
    (h : ctx.findFunction name types = .ok function) :
    (name, function) ∈ ctx.functions ∧ function.signature.typecheckArgs types = .ok () := by
  have hmem : ∀ f ∈ ctx.overloads name, (name, f) ∈ ctx.functions := by
    intro f hf
    obtain ⟨⟨name', f'⟩, hf', rfl⟩ := mem_map.mp hf
    obtain ⟨hmem, hname⟩ := mem_filter.mp hf'
    obtain rfl : name' = name := by simpa using hname
    exact hmem
  rw [QueryContext.findFunction] at h
  split at h
  · cases h
  · next f hoverloads =>
    rw [hoverloads, forall_mem_singleton] at hmem
    split at h
    · next hcheck =>
      cases h
      exact ⟨hmem, hcheck⟩
    · cases h
    · cases h
  · obtain ⟨found, hfound, h⟩ := bind_eq_ok.mp h
    split at h
    · cases h
      obtain ⟨hf, hcheck⟩ := findOverload_spec hfound
      exact ⟨hmem _ hf, hcheck⟩
    · cases h

theorem map_eq_pair_iff {α β : Type} {f : α → β} {l : List α} {b1 b2 : β} :
    l.map f = [b1, b2] ↔ ∃ a1 a2, l = [a1, a2] ∧ f a1 = b1 ∧ f a2 = b2 := by
  simp [map_eq_cons_iff]

section DefFunction

variable {α₁ α₂ α ρ₁ ρ₂ ρ : Type} {P1 : Dsl α₁ ρ₁} {P2 : Dsl α₂ ρ₂} {R : Dsl α ρ} {name : String}
  {values : List TypedAst} {value : TypedAst}

theorem functionResult_eq_ok {x : Except String ρ} {r : ρ} :
    functionResult name x = .ok r ↔ x = .ok r := by
  cases x with
  | error e => exact ⟨fun h => (nomatch h), fun h => (nomatch h)⟩
  | ok a => simp [functionResult]

theorem function1_inv {f : α₁ → Except String ρ} (h1 : ∀ t, P1.typeSpec ≠ .variadic t)
    (hcheck : (function1 P1 R name f).2.signature.typecheckArgs (values.map TypedAst.typeSpec) = .ok ())
    (hrun : (function1 P1 R name f).2.run values = .ok value) :
    ∃ v1 a r, values = [v1] ∧ P1.intoArg v1 = .ok a ∧ f a = .ok r ∧ R.fromReturn r = .ok value := by
  obtain ⟨_, hvalues, -⟩ := typecheckArgs_one h1 hcheck
  obtain ⟨v1, rfl, -⟩ := map_eq_singleton_iff.mp hvalues
  obtain ⟨a, ha, hrun⟩ := bind_eq_ok.mp hrun
  obtain ⟨r, hr, hrun⟩ := bind_eq_ok.mp hrun
  exact ⟨v1, a, r, rfl, ha, functionResult_eq_ok.mp hr, hrun⟩

theorem function2_inv {f : α₁ → α₂ → Except String ρ} (h1 : ∀ t, P1.typeSpec ≠ .variadic t)
    (h2 : ∀ t, P2.typeSpec ≠ .variadic t) (hcheck : (function2 P1 P2 R name f).2.signature.typecheckArgs
      (values.map TypedAst.typeSpec) = .ok ()) (hrun : (function2 P1 P2 R name f).2.run values = .ok value) :
    ∃ v1 v2 a1 a2 r, values = [v1, v2] ∧ P1.intoArg v1 = .ok a1 ∧ P2.intoArg v2 = .ok a2 ∧
      f a1 a2 = .ok r ∧ R.fromReturn r = .ok value := by
  obtain ⟨_, _, hvalues, -, -⟩ := typecheckArgs_two h1 h2 hcheck
  obtain ⟨v1, v2, rfl, -, -⟩ := map_eq_pair_iff.mp hvalues
  obtain ⟨a1, ha1, hrun⟩ := bind_eq_ok.mp hrun
  obtain ⟨a2, ha2, hrun⟩ := bind_eq_ok.mp hrun
  obtain ⟨r, hr, hrun⟩ := bind_eq_ok.mp hrun
  exact ⟨v1, v2, a1, a2, r, rfl, ha1, ha2, functionResult_eq_ok.mp hr, hrun⟩

end DefFunction

/-! ### Arguments are passed on unchanged -/

section Args

variable {α ρ : Type} {T : Dsl α ρ} {value : TypedAst}

theorem ersatz_intoArg {a : TypedAst} (h : T.ersatz.intoArg value = .ok a) : a = value := by
  obtain ⟨_, -, h⟩ := bind_eq_ok.mp h
  exact (Except.ok.inj h).symm

theorem string_intoArg {a : String} (h : Dsl.string.intoArg value = .ok a) :
    TypedAst.string a = value := by
  cases value <;> first | exact congrArg _ (Except.ok.inj h).symm | cases h

theorem nullable_intoArg {wrap : α → TypedAst}
    (hwrap : ∀ a, T.intoArg value = .ok a → wrap a = value) {o : Option α}
    (h : T.nullable.intoArg value = .ok o) : TypedAst.ofOption wrap o = value := by
  cases hvalue : value with
  | null =>
    subst hvalue
    cases h
    rfl
  | _ =>
    rw [hvalue] at h hwrap
    obtain ⟨a, ha, h⟩ := bind_eq_ok.mp h
    cases h
    exact hwrap a ha

end Args

end Osrd.Search
