import Osrd.Search.Typing
import Mathlib.Tactic.Ring

/-! How types compare (`editoast/search/src/typing.rs`): containment, and the equality of unions.

    Containment is transitive. A type contains itself unless a union in it has `Any` or a sequence among its
    alternatives: a union is only searched for atomic types. Two unions are compared by what their hash is
    fed, which of an alternative is its kind alone. -/

namespace Osrd.Search.TypeSpec

open List

/-! ### Containment -/

/-- `self ⊇ spec`. -/
def Contains (self spec : TypeSpec) : Prop := self.isSupertypeSpec spec = some true

variable {a b c l r : TypeSpec} {t : AstType}

theorem any_contains (b : TypeSpec) : any.Contains b := by simp [Contains, isSupertypeSpec]

theorem contains_any : a.Contains .any ↔ a = .any := by
  cases a <;> simp [Contains, isSupertypeSpec]

theorem contains_type : a.Contains (.type t) ↔ a.isSupertype t := by
  cases a <;> simp [Contains, isSupertypeSpec, isSupertype]

theorem contains_union : a.Contains (.union l r) ↔ a.Contains l ∧ a.Contains r := by
  by_cases ha : a = .any
  · simp [ha, any_contains]
  · rw [Contains, isSupertypeSpec]
    · split
      · next h => simp [Contains, h]
      · next h =>
        constructor
        · exact fun hl => absurd hl h
        · exact fun hl => absurd hl.1 h
    · exact ha

theorem contains_sequence {y : TypeSpec} :
    a.Contains (.sequence y) ↔ a = .any ∨ ∃ x, a = .sequence x ∧ x.Contains y := by
  cases a <;> simp [Contains, isSupertypeSpec]

theorem contains_variadic {x : TypeSpec} : a.Contains (.variadic x) ↔ a = .any := by
  cases a <;> simp [Contains, isSupertypeSpec]

theorem contains_function {args : List TypeSpec} : a.Contains (.function args r) ↔ a = .any := by
  cases a <;> simp [Contains, isSupertypeSpec]

/-- What contains a type contains the atomic types that are in it. -/
theorem Contains.isSupertype : ∀ {b : TypeSpec}, a.Contains b → b.isSupertype t → a.isSupertype t
  | .any, h, _ => by rw [contains_any.mp h, TypeSpec.isSupertype]
  | .type t', h, hb => by
    obtain rfl : t' = t := by simpa [TypeSpec.isSupertype] using hb
    exact contains_type.mp h
  | .union l r, h, hb => by
    obtain ⟨hl, hr⟩ := contains_union.mp h
    rw [TypeSpec.isSupertype, Bool.or_eq_true] at hb
    exact hb.elim hl.isSupertype hr.isSupertype
  | .sequence _, _, hb => by simp [TypeSpec.isSupertype] at hb
  | .variadic _, h, _ => by rw [contains_variadic.mp h, TypeSpec.isSupertype]
  | .function .., h, _ => by rw [contains_function.mp h, TypeSpec.isSupertype]

theorem Contains.trans : ∀ {c a b : TypeSpec}, a.Contains b → b.Contains c → a.Contains c
  | .any, _, _, hab, hbc => contains_any.mp hbc ▸ hab
  | .type _, _, _, hab, hbc => contains_type.mpr (hab.isSupertype (contains_type.mp hbc))
  | .union l r, _, _, hab, hbc => by
    obtain ⟨hl, hr⟩ := contains_union.mp hbc
    exact contains_union.mpr ⟨hab.trans hl, hab.trans hr⟩
  | .sequence z, a, b, hab, hbc => by
    rcases contains_sequence.mp hbc with rfl | ⟨y, rfl, hyz⟩
    · exact contains_any.mp hab ▸ any_contains _
    · rcases contains_sequence.mp hab with rfl | ⟨x, rfl, hxy⟩
      · exact any_contains _
      · exact contains_sequence.mpr (.inr ⟨x, rfl, hxy.trans hyz⟩)
  | .variadic _, _, _, hab, hbc => by
    obtain rfl := contains_variadic.mp hbc
    exact contains_any.mp hab ▸ any_contains _
  | .function .., _, _, hab, hbc => by
    obtain rfl := contains_function.mp hbc
    exact contains_any.mp hab ▸ any_contains _

/-- An atomic type, or a union of atomic types. -/
def Atomic : TypeSpec → Prop
  | .type _ => True
  | .union left right => left.Atomic ∧ right.Atomic
  | _ => False

/-- The alternatives of every union are atomic types. -/
def Regular : TypeSpec → Prop
  | .any => True
  | .type _ => True
  | .union left right => left.Atomic ∧ right.Atomic
  | .sequence item => item.Regular
  | _ => False

theorem Atomic.contains : ∀ {b : TypeSpec}, b.Atomic → (∀ t, b.isSupertype t → a.isSupertype t) →
    a.Contains b
  | .type t, _, h => contains_type.mpr (h t (by simp [isSupertype]))
  | .union l r, hb, h => by
    refine contains_union.mpr ⟨hb.1.contains fun t ht => h t ?_, hb.2.contains fun t ht => h t ?_⟩
    · simp [isSupertype, ht]
    · simp [isSupertype, ht]

/-- A union only contains unions of atomic types. -/
theorem Contains.atomic : ∀ {b : TypeSpec}, (union l r).Contains b → b.Atomic
  | .any, h => nomatch contains_any.mp h
  | .type _, _ => trivial
  | .union .., h => by
    obtain ⟨hl, hr⟩ := contains_union.mp h
    exact ⟨hl.atomic, hr.atomic⟩
  | .sequence _, h => by simp [contains_sequence] at h
  | .variadic _, h => nomatch contains_variadic.mp h
  | .function .., h => nomatch contains_function.mp h

theorem contains_self : ∀ {a : TypeSpec}, a.Contains a ↔ a.Regular
  | .any => by simp [any_contains, Regular]
  | .type t => by simp [contains_type, isSupertype, Regular]
  | .union l r => by
    constructor
    · exact Contains.atomic
    · exact fun h => Atomic.contains (b := .union l r) h fun _ ht => ht
  | .sequence item => by simp [contains_sequence, Regular, @contains_self item]
  | .variadic _ => by simp [contains_variadic, Regular]
  | .function .. => by simp [contains_function, Regular]

/-- Containment is transitive, and reflexive on the types whose unions have atomic alternatives and on no
    other. -/
theorem isSupertypeSpec_preorder_iff (a b c : TypeSpec) : (a.isSupertypeSpec a = some true ↔ a.Regular) ∧
    (a.isSupertypeSpec b = some true → b.isSupertypeSpec c = some true → a.isSupertypeSpec c = some true) :=
  ⟨contains_self, Contains.trans⟩

/-- Strings or sequences of strings do not contain themselves. -/
theorem isSupertypeSpec_union_sequence :
    (union (.type .string) (.sequence (.type .string))).isSupertypeSpec
      (.union (.type .string) (.sequence (.type .string))) = some false := by
  decide

/-! ### Equality -/

theorem sizeOf_pos (spec : TypeSpec) : 0 < sizeOf spec := by
  cases spec <;> simp +arith

/-- `Alternatives`: what the iterator yields from its queue. -/
def alternatives : List TypeSpec → List TypeSpec
  | [] => []
  | .union left right :: stack => alternatives (stack ++ [left, right])
  | spec :: stack => spec :: alternatives stack
termination_by stack => (stack.map sizeOf).sum
decreasing_by
  · simp only [map_append, map_cons, map_nil, sum_append, sum_cons, sum_nil, union.sizeOf_spec]
    omega
  · simp only [map_cons, sum_cons]
    have := sizeOf_pos spec
    omega

def iterUnionAlternatives : TypeSpec → List TypeSpec
  | .union left right => alternatives [.union left right]
  | _ => []

inductive Discriminant
  | any
  | type
  | union
  | sequence
  | variadic
  | function
deriving DecidableEq

def discriminant : TypeSpec → Discriminant
  | .any => .any
  | .type _ => .type
  | .union .. => .union
  | .sequence _ => .sequence
  | .variadic _ => .variadic
  | .function .. => .function

theorem of_mem_alternatives {stack : List TypeSpec} {spec : TypeSpec} (h : spec ∈ alternatives stack) :
    spec.discriminant ≠ .union ∧ sizeOf spec ≤ (stack.map sizeOf).sum := by
  fun_induction alternatives stack with
  | case1 => simp at h
  | case2 left right stack ih =>
    obtain ⟨hne, hle⟩ := ih h
    refine ⟨hne, Nat.le_trans hle ?_⟩
    simp
    omega
  | case3 stack first hne ih =>
    rcases mem_cons.mp h with rfl | h
    · refine ⟨?_, by simp⟩
      cases spec <;> simp [discriminant]
      exact hne _ _ rfl
    · obtain ⟨hne, hle⟩ := ih h
      exact ⟨hne, Nat.le_trans hle (by simp)⟩

/-- What the hasher is fed. -/
def hash : TypeSpec → List Discriminant
  | .union left right =>
      .union :: (iterUnionAlternatives (.union left right)).attach.flatMap fun alternative =>
        hash alternative.1
  | spec => [spec.discriminant]
termination_by spec => sizeOf spec
decreasing_by
  have hmem : alternative.1 ∈ alternatives [.union left right] := alternative.2
  rw [alternatives] at hmem
  have hle := (of_mem_alternatives hmem).2
  simp at hle ⊢
  omega

/-- The hasher is taken to tell different sequences of data apart. -/
def hashEq (a b : TypeSpec) : Bool := a.hash = b.hash

mutual

def eq : TypeSpec → TypeSpec → Bool
  | .any, .any => true
  | .type lts, .type rts => lts = rts
  | .union left right, .union left' right' => hashEq (.union left right) (.union left' right')
  | .sequence lts, .sequence rts => lts.eq rts
  | .variadic lts, .variadic rts => lts.eq rts
  | .function largs lresult, .function rargs rresult => eqs largs rargs && lresult.eq rresult
  | _, _ => false

def eqs : List TypeSpec → List TypeSpec → Bool
  | [], [] => true
  | l :: ls, r :: rs => l.eq r && eqs ls rs
  | _, _ => false

end

/-- The kinds of the alternatives. -/
def kinds (spec : TypeSpec) : List Discriminant := spec.iterUnionAlternatives.map discriminant

theorem hash_union (l r : TypeSpec) : (union l r).hash = .union :: (union l r).kinds := by
  have hone : ∀ alternative ∈ (union l r).iterUnionAlternatives, alternative.hash =
      [alternative.discriminant] := by
    intro alternative hmem
    have hne := (of_mem_alternatives hmem).1
    cases alternative <;> simp [TypeSpec.hash, discriminant] at hne ⊢
  rw [TypeSpec.hash, kinds, map_eq_flatMap, ← flatMap_congr hone]
  simp

/-- Two unions are equal iff their alternatives are, unless different alternatives are of the same kinds. -/
theorem union_eq_iff (l r l' r' : TypeSpec) : ((union l r).eq (.union l' r') = true ↔
        (union l r).iterUnionAlternatives = (union l' r').iterUnionAlternatives) ↔
      ((union l r).kinds = (union l' r').kinds →
        (union l r).iterUnionAlternatives = (union l' r').iterUnionAlternatives) := by
  have heq : (union l r).eq (.union l' r') = true ↔ (union l r).kinds = (union l' r').kinds := by
    simp [eq, hashEq, hash_union]
  rw [heq]
  constructor
  · exact Iff.mp
  · exact fun h => ⟨h, congrArg (map discriminant)⟩

/-- Integers or strings equal booleans or nulls. -/
theorem union_eq_same_kinds :
    (union (.type .integer) (.type .string)).eq (.union (.type .boolean) (.type .null)) = true ∧
      (union (.type .integer) (.type .string)).iterUnionAlternatives ≠
        (union (.type .boolean) (.type .null)).iterUnionAlternatives := by
  simp [eq, hashEq, hash_union, kinds, iterUnionAlternatives, alternatives, discriminant]

end Osrd.Search.TypeSpec
