import Osrd.Lib.Transitions
import Osrd.RangeMap.Impl

/-! The two lists of a `DistanceRangeMapImpl` as transitions of a step function.

    `Repr bounds values ts` reads the two lists as the transitions `ts`: `bounds[i]` starts the value
    `values[i]`, and the last bound ends the map. Each edit of the two lists is an edit of the
    transitions, so the transient states of `putOptional` (several transitions at one bound, gaps at the
    ends) are ordinary transition lists, and `ensureInvariants` brings them back to the canonical one
    without changing the function they denote. -/

namespace Osrd.RangeMap

open Transitions Option

namespace DistanceRangeMapImpl

variable {T : Type}

/-- The two lists, one longer than the other, read as transitions. -/
inductive Repr : List Distance → List (Option T) → List (Distance × Option T) → Prop
  | last (b : Distance) : Repr [b] [] [(b, none)]
  | cons {bounds values ts} (b : Distance) (v : Option T) (h : Repr bounds values ts) :
      Repr (b :: bounds) (v :: values) ((b, v) :: ts)

namespace Repr

variable {bounds : List Distance} {values : List (Option T)} {ts : List (Distance × Option T)}

theorem exists_of_length : ∀ {bounds : List Distance} {values : List (Option T)},
    bounds.length = values.length + 1 → ∃ ts, Repr bounds values ts
  | [], _, h => by simp at h
  | [b], [], _ => ⟨_, .last b⟩
  | b :: bounds, v :: values, h => by
    have hlen : bounds.length = values.length + 1 := by simpa using h
    obtain ⟨ts, hts⟩ := exists_of_length hlen
    exact ⟨_, .cons b v hts⟩
  | _ :: _ :: _, [], h => by simp at h

variable (h : Repr bounds values ts)

include h in
theorem length_eq : bounds.length = values.length + 1 := by
  induction h with
  | last b => rfl
  | cons b v _ ih => simp [ih]

include h in
theorem bounds_eq : bounds = ts.map Prod.fst := by
  induction h with
  | last b => rfl
  | cons b v _ ih => simp [← ih]

include h in
theorem values_eq : values ++ [none] = ts.map Prod.snd := by
  induction h with
  | last b => rfl
  | cons b v _ ih => simp [← ih]

include h in
theorem ne_nil : ts ≠ [] := by
  cases h <;> simp

include h in
theorem lastVal_eq (prev : Option T) : lastVal prev ts = none := by
  induction h generalizing prev with
  | last b => rfl
  | cons b v _ ih => exact ih v

include h in
/-- Transitions that end with `none` are read from exactly one pair of lists. -/
theorem unique {bounds' : List Distance} {values' : List (Option T)}
    (h' : Repr bounds' values' ts) : bounds = bounds' ∧ values = values' := by
  refine ⟨h.bounds_eq.trans h'.bounds_eq.symm, ?_⟩
  exact List.append_cancel_right (h.values_eq.trans h'.values_eq.symm)

/-- Reading back the first of several transitions. -/
theorem uncons {b : Distance} {v : Option T} (hne : ts ≠ []) (h : Repr bounds values ((b, v) :: ts)) :
    ∃ bs vs, bounds = b :: bs ∧ values = v :: vs ∧ Repr bs vs ts := by
  cases h with
  | last b => exact absurd rfl hne
  | cons b v h => exact ⟨_, _, rfl, rfl, h⟩

/-! ### Insertion of one transition -/

theorem insert_mid {C : List (Distance × Option T)} (hC : C ≠ []) (o : Distance) (v : Option T) :
    ∀ {A : List (Distance × Option T)} {bounds : List Distance} {values : List (Option T)},
      Repr bounds values (A ++ C) →
      Repr (bounds.insertIdx A.length o) (values.insertIdx (min A.length values.length) v) (A ++ (o, v) :: C)
  | [], _, _, h => by simpa using h.cons o v
  | (b, w) :: A, _, _, h => by
    obtain ⟨bs, vs, rfl, rfl, htail⟩ := h.uncons (by simp [hC])
    simpa [Nat.add_min_add_right] using (insert_mid hC o v htail).cons b w

theorem insert_end (b o : Distance) (v : Option T) :
    ∀ {A : List (Distance × Option T)} {bounds : List Distance} {values : List (Option T)},
      Repr bounds values (A ++ [(b, none)]) → Repr (bounds.insertIdx (A.length + 1) o)
        (values.insertIdx (min (A.length + 1) values.length) v) (A ++ [(b, v), (o, none)])
  | [], _, _, h => by
    cases h with
    | last b => simpa using (last o).cons b v
    | cons b w h => cases h
  | (c, w) :: A, _, _, h => by
    obtain ⟨bs, vs, rfl, rfl, htail⟩ := h.uncons (by simp)
    simpa [Nat.add_min_add_right] using (insert_end b o v htail).cons c w

/-! ### Deletion and merging -/

include h in
theorem deleteInside_eq {lower upper : Distance} :
    (∀ t ∈ ts.getLast?, ¬ (lower < t.1 ∧ t.1 < upper)) →
    ∃ r, deleteInside lower upper bounds values = some r ∧
      Repr r.1 r.2 (ts.filter fun t => ¬ (lower < t.1 ∧ t.1 < upper)) := by
  induction h with
  | last b =>
    intro hlast
    have hb : ¬ (lower < b ∧ b < upper) := hlast (b, none) rfl
    refine ⟨([b], []), by simp [deleteInside, hb], ?_⟩
    rw [List.filter_cons_of_pos (by exact decide_eq_true hb), List.filter_nil]
    exact last b
  | @cons bounds values ts b v htail ih =>
    intro hlast
    have hlast' : ∀ t ∈ ts.getLast?, ¬ (lower < t.1 ∧ t.1 < upper) := by
      intro t ht
      refine hlast t ?_
      obtain ⟨u, us, rfl⟩ := List.exists_cons_of_ne_nil htail.ne_nil
      simpa using ht
    obtain ⟨r, hr, hrepr⟩ := ih hlast'
    by_cases hb : lower < b ∧ b < upper
    · refine ⟨r, by simp [deleteInside, hr, hb], ?_⟩
      rwa [List.filter_cons_of_neg (by simpa using hb)]
    · refine ⟨(b :: r.1, v :: r.2), by simp [deleteInside, hr, hb], ?_⟩
      rw [List.filter_cons_of_pos (by exact decide_eq_true hb)]
      exact hrepr.cons b v

theorem mergeZeroLength_eq : ∀ {b : Distance} {bounds : List Distance} {values : List (Option T)}
    {ts : List (Distance × Option T)}, Repr (b :: bounds) values ts →
    ∃ r, mergeZeroLength b bounds values = some r ∧ Repr r.1 r.2 (dedup ts)
  | b, _, _, _, .last _ => ⟨([b], []), rfl, .last b⟩
  | b, _, _, _, .cons _ v hrest => by
    cases hrest with
    | last c =>
      by_cases hbc : b = c
      · subst hbc
        exact ⟨([b], []), by simp [mergeZeroLength], by simpa [dedup] using last b⟩
      · refine ⟨([b, c], [v]), by simp [mergeZeroLength, hbc], ?_⟩
        simpa [dedup, hbc] using (last c).cons b v
    | cons c w h =>
      obtain ⟨r, hr, hrepr⟩ := mergeZeroLength_eq (h.cons c w)
      by_cases hbc : b = c
      · subst hbc
        exact ⟨r, by simpa [mergeZeroLength] using hr, by simpa [dedup] using hrepr⟩
      · refine ⟨(b :: r.1, v :: r.2), ?_, by simpa [dedup, hbc] using hrepr.cons b v⟩
        rw [mergeZeroLength, if_neg hbc, hr]
        rfl

variable [DecidableEq T]

theorem mergeIdentical_eq (b d : Distance) : ∀ {ts : List (Distance × Option T)} {v : Option T}
    {bounds : List Distance} {values : List (Option T)}, Repr bounds values (ts ++ [(d, none)]) →
    ∃ r, mergeIdentical v bounds values = some r ∧
      Repr (b :: r.1) r.2 ((b, v) :: dropRep v ts ++ [(d, none)])
  | [], v, _, _, h => by
    cases h with
    | last d => exact ⟨([d], [v]), rfl, (last d).cons b v⟩
    | cons c w h => cases h
  | (c, w) :: ts, v, _, _, h => by
    obtain ⟨bs, vs, rfl, rfl, htail⟩ := h.uncons (by simp)
    by_cases hvw : v = w
    · subst hvw
      obtain ⟨r, hr, hrepr⟩ := mergeIdentical_eq b d (v := v) htail
      exact ⟨r, by simpa [mergeIdentical] using hr, by simpa [dropRep] using hrepr⟩
    · obtain ⟨r, hr, hrepr⟩ := mergeIdentical_eq c d (v := w) htail
      refine ⟨(c :: r.1, v :: r.2), by rw [mergeIdentical, if_neg hvw, hr]; rfl, ?_⟩
      simpa [dropRep, Ne.symm hvw] using hrepr.cons b v

end Repr

/-! ### Canonical maps -/

variable (m : DistanceRangeMapImpl T)

/-- The transitions of a map: each bound with the value that starts there. -/
def transitions : List (Distance × Option T) :=
  m.bounds.zip (m.values ++ [none])

/-- Value of the range `[lower, upper)` that contains `x`, if any. -/
def rangeValue (x : Distance) : Option T := eval none m.transitions x

/-- The map whose transitions are `ts`: nothing at all, or two lists of adjacent lengths. -/
def Denotes (ts : List (Distance × Option T)) : Prop :=
  (m = empty ∧ ts = []) ∨ Repr m.bounds m.values ts

/-- The representation invariant: no range at all, or strictly increasing bounds, one more than
    values, with no two equal consecutive values and no `null` at either end. -/
def RepInv : Prop :=
  (m.bounds = [] ∧ m.values = []) ∨
    (m.bounds.Pairwise (· < ·) ∧ m.bounds.length = m.values.length + 1 ∧
      m.values.IsChain (· ≠ ·) ∧ (∃ v, m.values.head? = some (some v)) ∧
      ∃ v, m.values.getLast? = some (some v))

/-- A map with entries, whose transitions are `ts`. -/
abbrev Reads (ts : List (Distance × Option T)) : Prop := Repr m.bounds m.values ts

/-- An operation returns a map in the invariant, with these values. -/
def Yields (r : Option (DistanceRangeMapImpl T)) (value : Distance → Option T) : Prop :=
  ∃ m', r = some m' ∧ m'.RepInv ∧ ∀ x, m'.rangeValue x = value x

variable {bounds : List Distance} {values : List (Option T)} {ts : List (Distance × Option T)}
  {m m' : DistanceRangeMapImpl T}

theorem Repr.transitions_eq (h : Repr bounds values ts) : transitions ⟨bounds, values⟩ = ts := by
  induction h with
  | last b => rfl
  | cons b v _ ih => simpa [transitions] using ih

theorem Denotes.transitions_eq (h : m.Denotes ts) : m.transitions = ts := by
  rcases h with ⟨rfl, rfl⟩ | h
  · rfl
  · exact h.transitions_eq

theorem Denotes.rangeValue_eq (h : m.Denotes ts) (x : Distance) : m.rangeValue x = eval none ts x := by
  rw [rangeValue, h.transitions_eq]

/-- Two maps with the same transitions are the same two lists. -/
theorem Denotes.unique (h : m.Denotes ts) (h' : m'.Denotes ts) : m = m' := by
  rcases h with ⟨rfl, rfl⟩ | h
  · rcases h' with ⟨rfl, -⟩ | h'
    · rfl
    · exact absurd rfl h'.ne_nil
  · rcases h' with ⟨-, rfl⟩ | h'
    · exact absurd rfl h.ne_nil
    · obtain ⟨hb, hv⟩ := h.unique h'
      cases m; cases m'
      simp_all

/-- Alternating transitions have values that differ from their neighbours. -/
theorem Repr.alternates_iff (h : Repr bounds values ts) : ∀ prev, Alternates prev ts ↔
    (prev :: values).IsChain (· ≠ ·) ∧ (prev :: values).getLast? ≠ some none := by
  induction h with
  | last b =>
    intro prev
    simp [Alternates, eq_comm]
  | cons b v h ih =>
    intro prev
    rw [Alternates, ih v, List.isChain_cons_cons, ne_comm, and_assoc, List.getLast?_cons_cons]

theorem Denotes.repInv (h : m.Denotes ts) (hc : Canonical none ts) : m.RepInv := by
  rcases h with ⟨rfl, rfl⟩ | h
  · exact .inl ⟨rfl, rfl⟩
  · refine .inr ⟨?_, h.length_eq, ?_⟩
    · rw [h.bounds_eq, List.pairwise_map]
      exact hc.sorted
    · obtain ⟨bounds, values⟩ := m
      cases h with
      | last b => exact absurd rfl hc.alternates.1
      | cons b v h =>
        obtain ⟨hchain, hlast⟩ := (h.alternates_iff v).mp hc.alternates.2
        obtain ⟨w, hw⟩ := ne_none_iff_exists'.mp hc.alternates.1
        refine ⟨hchain, ⟨w, by simp [hw]⟩, ?_⟩
        cases hg : (v :: _).getLast? with
        | none => simp at hg
        | some o =>
          cases o with
          | none => exact absurd hg hlast
          | some u => exact ⟨u, rfl⟩

/-- Converse: the invariant makes the transitions canonical. -/
theorem RepInv.denotes (h : m.RepInv) : m.Denotes m.transitions ∧ Canonical none m.transitions := by
  obtain ⟨bounds, values⟩ := m
  rcases h with ⟨hb, hv⟩ | ⟨hsorted, hlen, hchain, ⟨v, hhead⟩, w, hlast⟩
  · subst hb hv
    exact ⟨.inl ⟨rfl, rfl⟩, .nil, trivial⟩
  · obtain ⟨ts, hts⟩ := Repr.exists_of_length hlen
    rw [hts.transitions_eq]
    refine ⟨.inr hts, ?_, ?_⟩
    · have hb : bounds = ts.map Prod.fst := hts.bounds_eq
      simp only [hb, List.pairwise_map] at hsorted
      exact hsorted
    · refine (hts.alternates_iff none).mpr ⟨?_, ?_⟩
      · cases values with
        | nil => simp at hhead
        | cons u us =>
          obtain rfl : u = some v := by simpa using hhead
          exact List.isChain_cons_cons.mpr ⟨by simp, hchain⟩
      · cases values with
        | nil => simp at hhead
        | cons u us =>
          simp [hlast]

/-- Maps that satisfy the invariant are determined by their values. -/
theorem RepInv.ext (h : m.RepInv) (h' : m'.RepInv)
    (heq : ∀ x, m.rangeValue x = m'.rangeValue x) : m = m' := by
  have hts : m.transitions = m'.transitions := h.denotes.2.ext h'.denotes.2 heq
  exact h.denotes.1.unique (hts ▸ h'.denotes.1)

section Yields

variable {r : Option (DistanceRangeMapImpl T)} {f g : Distance → Option T}

theorem RepInv.yields (h : m.RepInv) (hr : r = some m) (hval : ∀ x, m.rangeValue x = f x) : Yields r f :=
  ⟨m, hr, h, hval⟩

theorem Yields.exists (h : Yields r f) : ∃ m', r = some m' ∧ m'.RepInv ∧ ∀ x, m'.rangeValue x = f x := h

theorem Yields.repInv (h : Yields r f) (hr : r = some m) : m.RepInv := by
  obtain ⟨m', hm', hinv, -⟩ := h
  exact some.inj (hm'.symm.trans hr) ▸ hinv

theorem Yields.congr (h : Yields r f) (heq : ∀ x, f x = g x) : Yields r g := funext heq ▸ h

theorem Yields.eq_some (h : Yields r m.rangeValue) (hm : m.RepInv) : r = some m := by
  obtain ⟨m', rfl, hinv, hval⟩ := h
  rw [hinv.ext hm hval]

end Yields

/-! ### `ensureInvariants` -/

theorem Repr.exists_concat (h : Repr bounds values ts) : ∃ body d, ts = body ++ [(d, none)] := by
  induction h with
  | last b => exact ⟨[], b, rfl⟩
  | cons b v _ ih =>
    obtain ⟨body, d, rfl⟩ := ih
    exact ⟨(b, v) :: body, d, rfl⟩

theorem Repr.dropLast (c d : Distance) : ∀ {ts : List (Distance × Option T)}
    {bounds : List Distance} {values : List (Option T)}, Repr bounds values (ts ++ [(c, none), (d, none)]) →
    Repr bounds.dropLast values.dropLast (ts ++ [(c, none)])
  | [], _, _, h => by
    obtain ⟨bs, vs, rfl, rfl, htail⟩ := h.uncons (by simp)
    cases htail with
    | last d => exact .last c
    | cons d v h' => cases h'
  | (b, v) :: ts, _, _, h => by
    obtain ⟨bs, vs, rfl, rfl, htail⟩ := h.uncons (by simp)
    have hlen := htail.length_eq
    have hb : bs ≠ [] := by rintro rfl; simp at hlen
    have hv : vs ≠ [] := by
      rintro rfl
      have := congrArg List.length htail.values_eq
      simp at this
    rw [List.dropLast_cons_of_ne_nil hb, List.dropLast_cons_of_ne_nil hv]
    exact (dropLast c d htail).cons b v

theorem Repr.getLast_values {d : Distance} (h : Repr bounds values (ts ++ [(d, none)])) :
    values = ts.map Prod.snd := by
  have := h.values_eq
  rw [List.map_append] at this
  exact List.append_cancel_right this

section Merge

variable [DecidableEq T]

theorem dropFirstNull_eq {b d : Distance} {v : Option T}
    (h : m.Reads ((b, v) :: dropRep v ts ++ [(d, none)])) : m.dropFirstNull.Reads
      (dropRep none ((b, v) :: ts) ++ [(d, none)]) := by
  obtain ⟨bounds, values⟩ := m
  obtain ⟨bs, vs, rfl, rfl, htail⟩ := h.uncons (by simp)
  cases v with
  | none => simpa [dropFirstNull, dropRep] using htail
  | some w => simpa [dropFirstNull, dropRep] using htail.cons b (some w)

theorem dropLastNull_eq {d : Distance} (h : m.Reads (dropRep none ts ++ [(d, none)])) :
    (if m.dropLastNull.values.isEmpty then { m.dropLastNull with bounds := [] }
      else m.dropLastNull).Denotes (dropRep none (ts ++ [(d, none)])) := by
  have hvals := h.getLast_values
  rw [dropRep_append]
  rcases List.eq_nil_or_concat (dropRep none ts) with hnil | ⟨xs, ⟨c, w⟩, hconcat⟩
  · -- no range is left
    have hlast : lastVal none ts = none := by rw [← lastVal_dropRep, hnil]; rfl
    rw [hnil] at hvals ⊢
    refine .inl ⟨?_, by rw [hlast]; simp [dropRep]⟩
    simp [dropLastNull, hvals, empty]
  · rw [List.concat_eq_append] at hconcat
    have hlast : lastVal none ts = w := by rw [← lastVal_dropRep, hconcat, lastVal_concat]
    have hget : m.values.getLast? = some w := by rw [hvals, hconcat]; simp
    right
    cases w with
    | none =>
      -- the last range is a gap: its lower bound ends the map
      have hdrop : m.dropLastNull = ⟨m.bounds.dropLast, m.values.dropLast⟩ := by
        simp [dropLastNull, hget]
      rw [hconcat, List.append_assoc] at h
      have hrepr := Repr.dropLast c d h
      have hne : m.values.dropLast ≠ [] := by
        rw [hvals, hconcat, List.map_append, List.map_singleton, List.dropLast_concat]
        cases xs with
        | nil =>
          have halt := dropRep_alternates none ts
          rw [hconcat] at halt
          exact absurd rfl halt.1
        | cons x xs => simp
      rw [hdrop, if_neg (by simpa using hne), hconcat, hlast]
      simpa [dropRep] using hrepr
    | some u =>
      have hkeep : m.dropLastNull = m := by simp [dropLastNull, hget]
      have hne : m.values ≠ [] := by rintro hn; rw [hn] at hget; simp at hget
      rw [hkeep, if_neg (by simpa using hne), hlast]
      simpa [dropRep] using h

theorem mergeAdjacent_eq (h : m.Reads ts) : ∃ m', m.mergeAdjacent = some m' ∧
      ((m' = empty ∧ ∃ d, dedup ts = [(d, none)]) ∨ ∃ b v us d, dedup ts = (b, v) :: us ++ [(d, none)] ∧
        m'.Reads ((b, v) :: dropRep v us ++ [(d, none)])) := by
  obtain ⟨bounds, values⟩ := m
  obtain ⟨b0, bs0, rfl⟩ : ∃ b0 bs0, bounds = b0 :: bs0 :=
    List.exists_cons_of_ne_nil (by rintro rfl; simpa using h.length_eq)
  obtain ⟨r, hr, hrepr⟩ := Repr.mergeZeroLength_eq h
  obtain ⟨body, d, hbody⟩ := hrepr.exists_concat
  rw [hbody] at hrepr
  simp only [mergeAdjacent, hr]
  cases body with
  | nil =>
    obtain ⟨bs, vs⟩ := r
    cases hrepr with
    | last d => exact ⟨empty, by simp [empty], .inl ⟨rfl, d, hbody⟩⟩
    | cons d v h => cases h
  | cons t us =>
    obtain ⟨b, v⟩ := t
    obtain ⟨bs, vs, hbs, hvs, htail⟩ := hrepr.uncons (by simp)
    obtain ⟨r', hr', hrepr'⟩ := Repr.mergeIdentical_eq b d (v := v) htail
    refine ⟨⟨b :: r'.1, r'.2⟩, ?_, .inr ⟨b, v, us, d, hbody, hrepr'⟩⟩
    have hne : r'.2 ≠ [] := by
      rintro hn
      have := congrArg List.length hrepr'.values_eq
      simp [hn] at this
    simp [hbs, hvs, hr', hne]

/-- Consistency is restored without an exception, and only repeated transitions are dropped. -/
theorem ensureInvariants_eq (h : m.Reads ts) :
    ∃ m', m.ensureInvariants = some m' ∧ m'.Denotes (dropRep none (dedup ts)) := by
  obtain ⟨m', hm', hcases⟩ := mergeAdjacent_eq h
  have hguard : m.bounds.length = m.values.length + 1 ∨ (m.bounds = [] ∧ m.values = []) := .inl h.length_eq
  simp only [ensureInvariants, hguard, hm', bind_eq_bind, bind_some]
  refine ⟨_, rfl, ?_⟩
  rcases hcases with ⟨rfl, d, hd⟩ | ⟨b, v, us, d, hd, hrepr⟩
  · rw [hd]
    exact .inl ⟨by simp [dropFirstNull, dropLastNull, empty], by simp [dropRep]⟩
  · rw [hd]
    exact dropLastNull_eq (dropFirstNull_eq hrepr)

theorem ensureInvariants_spec (h : m.Reads ts) (hs : Sorted ts) :
    Yields m.ensureInvariants (eval none ts) := by
  obtain ⟨m', hm', hden⟩ := ensureInvariants_eq h
  have hstrict := dedup_strictSorted hs
  refine ⟨m', hm', hden.repInv (dropRep_canonical none hstrict), fun x => ?_⟩
  rw [hden.rangeValue_eq, eval_dropRep none hstrict.sorted, eval_dedup none hs]

end Merge

end DistanceRangeMapImpl

end Osrd.RangeMap
