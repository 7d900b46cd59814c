import Mathlib.Order.Basic

/-! Fallible computations (`Option`, `Except`): when each step of a loop succeeds, the whole loop does. -/

namespace Partial

open List Option

variable {α β σ : Type} {f : σ → α → Option σ}

/-- A loop whose step succeeds and keeps `P` on the elements of the list. -/
theorem foldlM_inv {P : σ → Prop} : ∀ {as : List α} {s : σ},
    (∀ s a, a ∈ as → P s → ∃ s', f s a = some s' ∧ P s') → P s → ∃ s', as.foldlM f s = some s' ∧ P s'
  | [], s, _, h => ⟨s, rfl, h⟩
  | a :: as, s, hstep, h => by
    obtain ⟨s₁, hs₁, h₁⟩ := hstep s a mem_cons_self h
    obtain ⟨s₂, hs₂, h₂⟩ := foldlM_inv (fun s b hb => hstep s b (mem_cons_of_mem _ hb)) h₁
    exact ⟨s₂, by rw [foldlM_cons, hs₁]; exact hs₂, h₂⟩

/-- A loop that succeeds has done so on each element of the list. -/
theorem exists_of_foldlM : ∀ {as : List α} {s s' : σ}, as.foldlM f s = some s' →
    ∀ {a : α}, a ∈ as → ∃ s₁ s₂, f s₁ a = some s₂
  | a' :: as, s, s', h, a, ha => by
    obtain ⟨s₁, hs₁, hrest⟩ := bind_eq_some_iff.mp h
    rcases mem_cons.mp ha with rfl | ha
    · exact ⟨s, s₁, hs₁⟩
    · exact exists_of_foldlM hrest ha

variable {f : α → Option β}

variable {as : List α} {bs : List β}

theorem mapM_eq_some_iff : ∀ {as : List α} {bs : List β}, as.mapM f = some bs ↔ as.map f = bs.map some
  | [], bs => by cases bs <;> simp
  | a :: as, bs => by
    simp only [mapM_cons, bind_eq_bind, bind_eq_some_iff, mapM_eq_some_iff]
    cases bs with
    | nil => simp
    | cons b bs =>
      constructor
      · rintro ⟨b', hb', bs', hbs', h⟩
        cases h
        rw [map_cons, hb', hbs', map_cons]
      · intro h
        obtain ⟨hb, hbs⟩ := cons.inj h
        exact ⟨b, hb, bs, hbs, rfl⟩

/-- A map whose function succeeds on the elements of the list. -/
theorem mapM_exists : ∀ {as : List α}, (∀ a ∈ as, ∃ b, f a = some b) → ∃ bs, as.mapM f = some bs
  | [], _ => ⟨[], rfl⟩
  | a :: as, h => by
    obtain ⟨b, hb⟩ := h a mem_cons_self
    obtain ⟨bs, hbs⟩ := mapM_exists (forall_mem_cons.mp h).2
    exact ⟨b :: bs, by rw [mapM_cons, hb, hbs]; rfl⟩

theorem mem_mapM_iff (h : as.mapM f = some bs) {b : β} : b ∈ bs ↔ ∃ a ∈ as, f a = some b := by
  rw [← List.mem_map, mapM_eq_some_iff.mp h]
  simp

/-- A map that succeeds has done so on each element of the list. -/
theorem exists_of_mapM (h : as.mapM f = some bs) {a : α} (ha : a ∈ as) : ∃ b, f a = some b := by
  have hmem : f a ∈ bs.map some := mapM_eq_some_iff.mp h ▸ mem_map_of_mem ha
  obtain ⟨b, -, hb⟩ := List.mem_map.mp hmem
  exact ⟨b, hb.symm⟩

theorem mapM_isSome_iff : (as.mapM f).isSome ↔ ∀ a ∈ as, (f a).isSome := by
  simp only [isSome_iff_exists]
  exact ⟨fun ⟨_, hbs⟩ _ ha => exists_of_mapM hbs ha, mapM_exists⟩

/-- A loop whose step succeeds or not whatever the state. -/
theorem foldlM_isSome_iff {f : σ → α → Option σ} {P : α → Prop} (hf : ∀ s a, (f s a).isSome ↔ P a) :
    ∀ (as : List α) (s : σ), (as.foldlM f s).isSome ↔ ∀ a ∈ as, P a
  | [], s => by simp
  | a :: as, s => by
    rw [foldlM_cons, forall_mem_cons, ← hf s a]
    cases hs : f s a with
    | none => simp
    | some s' => simpa using foldlM_isSome_iff hf as s'

theorem length_of_mapM (h : as.mapM f = some bs) : bs.length = as.length := by
  simpa using (congrArg length (mapM_eq_some_iff.mp h)).symm

theorem getElem?_of_mapM (h : as.mapM f = some bs) (i : ℕ) : bs[i]? = as[i]?.bind f := by
  have hget := congrArg (·[i]?) (mapM_eq_some_iff.mp h)
  cases has : as[i]? <;> cases hbs : bs[i]? <;> simp_all

/-- What the results of a map have in common with the elements they come from. -/
theorem map_of_mapM {γ : Type} {g : β → γ} {h : α → γ} (hmap : as.mapM f = some bs)
    (heq : ∀ a ∈ as, ∀ b, f a = some b → g b = h a) : bs.map g = as.map h := by
  refine List.ext_getElem? fun i => ?_
  rw [getElem?_map, getElem?_map, getElem?_of_mapM hmap]
  cases ha : as[i]? with
  | none => rfl
  | some a =>
    have hmem := mem_of_getElem? ha
    obtain ⟨b, hb⟩ := exists_of_mapM hmap hmem
    simp [hb, heq a hmem b hb]

variable {ε : Type}

/-- A sequence of two steps succeeds when both do. -/
theorem bind_eq_ok {x : Except ε α} {f : α → Except ε β} {b : β} :
    (x >>= f) = .ok b ↔ ∃ a, x = .ok a ∧ f a = .ok b := by
  cases x with
  | error e => exact ⟨fun h => (nomatch h), fun ⟨_, h, _⟩ => (nomatch h)⟩
  | ok a => exact ⟨fun h => ⟨a, rfl, h⟩, fun ⟨_, h, hf⟩ => Except.ok.inj h ▸ hf⟩

/-- A sequence of two steps fails when the first does, or the second after the first. -/
theorem bind_eq_error {x : Except ε α} {f : α → Except ε β} {e : ε} :
    (x >>= f) = .error e ↔ x = .error e ∨ ∃ a, x = .ok a ∧ f a = .error e := by
  cases x with
  | error e' => exact ⟨fun h => .inl (Except.error.inj h ▸ rfl), fun h =>
    h.elim (fun h => Except.error.inj h ▸ rfl) fun ⟨_, h, _⟩ => (nomatch h)⟩
  | ok a => exact ⟨fun h => .inr ⟨a, rfl, h⟩, fun h =>
    h.elim (fun h => (nomatch h)) fun ⟨_, h, hf⟩ => Except.ok.inj h ▸ hf⟩

theorem check_bind_eq_ok {x : Except ε Unit} {f : Unit → Except ε β} {b : β} :
    (x >>= f) = .ok b ↔ x = .ok () ∧ f () = .ok b :=
  bind_eq_ok.trans ⟨fun ⟨_, h⟩ => h, fun h => ⟨(), h⟩⟩

theorem check_bind_eq_error {x : Except ε Unit} {f : Unit → Except ε β} {e : ε} :
    (x >>= f) = .error e ↔ x = .error e ∨ x = .ok () ∧ f () = .error e :=
  bind_eq_error.trans (or_congr_right ⟨fun ⟨_, h⟩ => h, fun h => ⟨(), h⟩⟩)

theorem forM_eq_ok {f : α → Except ε Unit} : ∀ {as : List α}, as.forM f = .ok () ↔ ∀ a ∈ as, f a = .ok ()
  | [] => ⟨fun _ _ ha => (nomatch ha), fun _ => rfl⟩
  | a :: as => by
    change (f a >>= fun _ => as.forM f) = .ok () ↔ _
    rw [check_bind_eq_ok, forall_mem_cons, ← forM_eq_ok]

theorem forM_ne_error {f : α → Except ε Unit} {e : ε} : ∀ {as : List α},
    (∀ a ∈ as, f a ≠ .error e) → as.forM f ≠ .error e
  | [], _ => fun h => nomatch h
  | a :: as, hne => by
    obtain ⟨ha, has⟩ := forall_mem_cons.mp hne
    change (f a >>= fun _ => as.forM f) ≠ .error e
    rw [ne_eq, check_bind_eq_error]
    rintro (herror | ⟨_, herror⟩)
    · exact ha herror
    · exact forM_ne_error has herror

/-- A subtraction of natural numbers that fails below zero. -/
def checkedSub (a b : ℕ) : Option ℕ := if b ≤ a then some (a - b) else none

theorem checkedSub_of_le {a b : ℕ} (h : b ≤ a) : checkedSub a b = some (a - b) := if_pos h

end Partial
