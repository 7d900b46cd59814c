import Osrd.RangeMap.Values

/-! What the two updates by another map leave at each distance.

    Both cut the ranges of one map by the ranges of a `subMap` of the other. A distance is in at most one
    entry of each map, so each loop does something for it at most once (`EntriesInv.foldl_covers`), and what
    it does depends on the values of the two maps there. -/

namespace Osrd.RangeMap

open Option List

namespace DistanceRangeMapImpl

variable {T U : Type}

/-! ### Ranges cut by others -/

/-- The entries between two distances. -/
structure Within (lower upper : Distance) (es : List (RangeMapEntry U)) : Prop where
  inv : EntriesInv es
  lower_le : ∀ e ∈ es, lower ≤ e.lower
  le_upper : ∀ e ∈ es, e.upper ≤ upper

theorem Within.tail {lower upper : Distance} {e : RangeMapEntry U} {es : List (RangeMapEntry U)}
    (h : Within lower upper (e :: es)) : Within e.upper upper es :=
  ⟨h.inv.tail, h.inv.head_le, (forall_mem_cons.mp h.le_upper).2⟩

theorem overlay_ite (r : Option T) (c : Prop) [Decidable c] (e : RangeMapEntry T) (x : Distance) :
    overlay r (if c then [e] else []) x = if c ∧ Covers e x then some e.value else r := by
  by_cases hc : c
  · simp only [hc, true_and]
    rfl
  · rw [if_neg hc, if_neg fun h => hc h.1]
    rfl

theorem overlay_toList (r : Option T) (o : Option T) (lower upper x : Distance) :
    overlay r (o.map fun v => (⟨lower, upper, v⟩ : RangeMapEntry T)).toList x =
      if lower ≤ x ∧ x < upper then o.or r else r := by
  cases o with
  | none => simp [overlay]
  | some v => rfl

/-- The pieces of a range: the value of the gaps, or what is made of the value of the entry there. -/
theorem overlay_splitBy (gap : T) (overlap : U → Option T) {upper x : Distance} :
    ∀ {subs : List (RangeMapEntry U)} {lastEnd : Distance} (r : Option T), Within lastEnd upper subs →
    overlay r (splitBy gap overlap upper lastEnd subs) x = if lastEnd ≤ x ∧ x < upper then
        match entryValue subs x with
        | none => some gap
        | some w => (overlap w).or r
      else r
  | [], lastEnd, r, _ => by
    rw [splitBy, overlay_ite]
    have hiff : (lastEnd < upper ∧ Covers (⟨lastEnd, upper, gap⟩ : RangeMapEntry T) x) ↔
        lastEnd ≤ x ∧ x < upper := ⟨fun h => h.2, fun h => ⟨h.1.trans_lt h.2, h⟩⟩
    simp only [hiff]
    rfl
  | s :: subs, lastEnd, r, h => by
    have hlower := h.lower_le s mem_cons_self
    have hupper := h.le_upper s mem_cons_self
    have hpos := h.inv.pos s mem_cons_self
    rw [splitBy, overlay_append, overlay_append, overlay_splitBy gap overlap _ h.tail, overlay_ite,
      overlay_toList]
    -- before the entry, in it, or after it
    rcases lt_or_ge x s.lower with hx | hx
    · have hvalue : entryValue (s :: subs) x = none := by
        rw [h.inv.entryValue_of_lt (hx.trans hpos), if_neg hx.not_ge]
      rw [if_neg fun hin => not_lt.mpr hin.1 (hx.trans hpos), if_neg fun hin => not_lt.mpr hin.1 hx, hvalue]
      have hiff : (lastEnd < s.lower ∧ Covers (⟨lastEnd, s.lower, gap⟩ : RangeMapEntry T) x) ↔
          lastEnd ≤ x ∧ x < upper :=
        ⟨fun hin => ⟨hin.2.1, hx.trans (hpos.trans_le hupper)⟩, fun hin => ⟨hin.1.trans_lt hx, hin.1, hx⟩⟩
      simp only [hiff]
    · have hgap : ¬ (lastEnd < s.lower ∧ Covers (⟨lastEnd, s.lower, gap⟩ : RangeMapEntry T) x) :=
        fun hin => not_lt.mpr hx hin.2.2
      rw [if_neg hgap]
      rcases lt_or_ge x s.upper with hx' | hx'
      · have hvalue : entryValue (s :: subs) x = some s.value := by
          rw [h.inv.entryValue_of_lt hx', if_pos hx]
        rw [if_neg fun hin => not_lt.mpr hin.1 hx', if_pos ⟨hx, hx'⟩, hvalue,
          if_pos ⟨hlower.trans hx, hx'.trans_le hupper⟩]
      · have hout : ¬ (s.lower ≤ x ∧ x < s.upper) := fun hin => not_lt.mpr hx' hin.2
        rw [if_neg hout, entryValue_of_le hx']
        have hiff : (s.upper ≤ x ∧ x < upper) ↔ lastEnd ≤ x ∧ x < upper :=
          ⟨fun hin => ⟨hlower.trans hx, hin.2⟩, fun hin => ⟨hx', hin.2⟩⟩
        simp only [hiff]

theorem EntriesInv.foldl_value {ss : List (RangeMapEntry U)} (h : EntriesInv ss) (g : U → T)
    (r : Option T) (x : Distance) : ss.foldl (fun r s => if Covers s x then some (g s.value) else r) r =
      ((entryValue ss x).map g).or r := by
  rw [h.foldl_covers (fun s _ => some (g s.value)) x, entryValue]
  cases ss.find? (Covers · x) <;> rfl

/-- The entries that are made from each of the entries of a map, laid over a value. -/
theorem EntriesInv.mapM_overlay {make : RangeMapEntry T → Option (List (RangeMapEntry T))}
    {g : Distance → RangeMapEntry T → Option T → Option T} {us : List (RangeMapEntry T)}
    (hus : EntriesInv us) (hmake : ∀ u ∈ us, ∃ es, make u = some es ∧
      ∀ r x, overlay r es x = if Covers u x then g x u r else r) : ∃ made, us.mapM make = some made ∧
      ∀ r x, overlay r made.flatten x = ((us.find? (Covers · x)).map (g x · r)).getD r := by
  have hloop : ∃ made, us.mapM make = some made ∧ ∀ r x, overlay r made.flatten x =
      us.foldl (fun r u => if Covers u x then g x u r else r) r := by
    clear hus
    induction us with
    | nil => exact ⟨[], rfl, fun _ _ => rfl⟩
    | cons u us ih =>
      obtain ⟨es, hes, hover⟩ := hmake u mem_cons_self
      obtain ⟨made, hmade, hover'⟩ := ih (forall_mem_cons.mp hmake).2
      refine ⟨es :: made, by rw [mapM_cons, hes, hmade]; rfl, fun r x => ?_⟩
      rw [flatten_cons, overlay_append, hover, hover', foldl_cons]
  obtain ⟨made, hmade, hover⟩ := hloop
  exact ⟨made, hmade, fun r x => (hover r x).trans (hus.foldl_covers (g x) x r)⟩

/-- A loop of which each round acts on the value at each distance. -/
theorem RepInv.foldlM_value {α : Type} {step : DistanceRangeMapImpl T → α → Option (DistanceRangeMapImpl T)}
    (g : Distance → Option T → α → Option T) : ∀ {ss : List α} {m : DistanceRangeMapImpl T}, m.RepInv →
    (∀ s ∈ ss, ∀ m : DistanceRangeMapImpl T, m.RepInv → Yields (step m s) fun x => g x (m.rangeValue x) s) →
      Yields (ss.foldlM step m) fun x => ss.foldl (g x) (m.rangeValue x)
  | [], m, h, _ => h.yields rfl fun _ => rfl
  | s :: ss, m, h, hstep => by
    obtain ⟨m₁, hm₁, hinv₁, hval₁⟩ := (hstep s mem_cons_self m h).exists
    rw [foldlM_cons, hm₁]
    refine (hinv₁.foldlM_value g (forall_mem_cons.mp hstep).2).congr fun x => ?_
    rw [hval₁, foldl_cons]

section Sub

variable [DecidableEq T] {m : DistanceRangeMapImpl T}

/-- The entries of the part of a map between two distances. -/
theorem RepInv.subMap_within (h : m.RepInv) {lower upper : Distance} (hlu : lower < upper) :
    ∃ sub ss, m.subMap lower upper = some sub ∧ sub.toList = some ss ∧ sub.forEach = some ss ∧
      (sub.isEmpty = true → ss = []) ∧ Within lower upper ss ∧
      ∀ x, entryValue ss x = if lower ≤ x ∧ x < upper then m.rangeValue x else none := by
  obtain ⟨sub, hsub, hinv, hval⟩ := (h.subMap_spec hlu).exists
  obtain ⟨ss, hlist, hcalls, hss, -⟩ := hinv.entriesInv
  have hvalue : ∀ x, entryValue ss x = if lower ≤ x ∧ x < upper then m.rangeValue x else none := by
    intro x
    rw [← hval, ← hinv.valueOf_eq, valueOf, hlist, getD_some]
  have hin : ∀ e ∈ ss, ∀ x, Covers e x → lower ≤ x ∧ x < upper := by
    intro e he x hcov
    by_contra hout
    have hsome := hss.entryValue_iff.mpr ⟨e, he, hcov, rfl⟩
    rw [hvalue, if_neg hout] at hsome
    cases hsome
  refine ⟨sub, ss, hsub, hlist, hcalls, ?_, ⟨hss, ?_, ?_⟩, hvalue⟩
  · intro hempty
    rcases hinv.empty_or_shape with rfl | ⟨lb, ub, ts, hsh⟩
    · exact (Option.some.inj hlist).symm
    · have hlow := hsh.lower_eq
      rw [isEmpty, List.isEmpty_iff] at hempty
      rw [lowerBound, hempty] at hlow
      cases hlow
  · intro e he
    exact (hin e he e.lower ⟨le_rfl, hss.pos e he⟩).1
  · intro e he
    by_contra hlt
    -- the entry would contain the distance `upper`
    have hlower := (hin e he e.lower ⟨le_rfl, hss.pos e he⟩).2
    exact absurd (hin e he upper ⟨hlower.le, not_le.mp hlt⟩).2 (lt_irrefl upper)

/-! ### `updateMapIntersection` -/

/-- One range of the update. -/
theorem RepInv.updateIntersection_step (h : m.RepInv) (f : T → U → T)
    {u : RangeMapEntry U} (hu : u.lower < u.upper) : Yields (do
        let sub ← m.subMap u.lower u.upper
        (← sub.forEach).foldlM (fun m s => m.put s.lower s.upper (f s.value u.value)) m)
      fun x => if Covers u x then (m.rangeValue x).map (f · u.value) else m.rangeValue x := by
  obtain ⟨sub, ss, hsub, -, hcalls, -, hwithin, hvalue⟩ := h.subMap_within hu
  have hput : ∀ s ∈ ss, ∀ m : DistanceRangeMapImpl T, m.RepInv →
      Yields (m.put s.lower s.upper (f s.value u.value))
        fun x => if Covers s x then some (f s.value u.value) else m.rangeValue x := by
    intro s hs m hm
    have hlt := hwithin.inv.pos s hs
    exact Yields.congr (hm.put_spec hlt.le _) fun x => if_congr (writes_of_lt hlt) rfl rfl
  simp only [hsub, hcalls, bind_eq_bind, bind_some]
  refine (h.foldlM_value (fun x r s => if Covers s x then some (f s.value u.value) else r) hput).congr
    fun x => ?_
  rw [hwithin.inv.foldl_value (f · u.value), hvalue]
  by_cases hcov : Covers u x
  · have hin : u.lower ≤ x ∧ x < u.upper := hcov
    rw [if_pos hcov, if_pos hin]
    cases m.rangeValue x <;> rfl
  · have hout : ¬ (u.lower ≤ x ∧ x < u.upper) := hcov
    rw [if_neg hcov, if_neg hout]
    rfl

theorem RepInv.updateMapIntersection_value {update : DistanceRangeMapImpl U} (h : m.RepInv)
    (hu : update.RepInv) (f : T → U → T) :
    Yields (m.updateMapIntersection update f) fun x => match m.rangeValue x, update.rangeValue x with
        | some v, some w => some (f v w)
        | r, _ => r := by
  obtain ⟨us, hlist, -, hus, -⟩ := hu.entriesInv
  rw [updateMapIntersection, hlist]
  refine (h.foldlM_value (fun x r u => if Covers u x then r.map (f · u.value) else r)
    fun u hmem m hm => hm.updateIntersection_step f (hus.pos u hmem)).congr fun x => ?_
  refine (hus.foldl_covers (fun u (r : Option T) => r.map (f · u.value)) x _).trans ?_
  rw [← hu.valueOf_eq, valueOf, hlist, getD_some, entryValue]
  cases us.find? (Covers · x) with
  | none =>
    cases m.rangeValue x <;> rfl
  | some u =>
    cases m.rangeValue x <;> rfl

/-! ### `updateMap` -/

/-- The pieces a map cuts a range in: a part without entries leaves it whole. -/
theorem RepInv.splitBy_subMap (h : m.RepInv) {u : RangeMapEntry T}
    (hu : u.lower < u.upper) (gap : T) (overlap : T → Option T) : ∃ es, (do
        let sub ← m.subMap u.lower u.upper if sub.isEmpty then some [⟨u.lower, u.upper, gap⟩]
        else some (splitBy gap overlap u.upper u.lower (← sub.toList))) = some es ∧
      ∀ r x, overlay r es x = if Covers u x then
          match m.rangeValue x with
          | none => some gap
          | some w => (overlap w).or r
        else r := by
  obtain ⟨sub, ss, hsub, hlist, -, hempty, hwithin, hvalue⟩ := h.subMap_within hu
  refine ⟨splitBy gap overlap u.upper u.lower ss, ?_, fun r x => ?_⟩
  · simp only [hsub, hlist, bind_eq_bind, bind_some]
    split
    · next hsub' =>
      rw [hempty hsub', splitBy, if_pos hu]
    · rfl
  · rw [overlay_splitBy _ _ r hwithin, hvalue]
    by_cases hcov : Covers u x
    · have hin : u.lower ≤ x ∧ x < u.upper := hcov
      simp only [if_pos hcov, if_pos hin]
    · have hout : ¬ (u.lower ≤ x ∧ x < u.upper) := hcov
      rw [if_neg hcov, if_neg hout]

/-- What one range of the update adds. -/
theorem RepInv.updateEntries_value (h : m.RepInv) (f : T → T → T) (default : T → T)
    {u : RangeMapEntry T} (hu : u.lower < u.upper) :
    ∃ es, m.updateEntries f default u = some es ∧ ∀ r x, overlay r es x = if Covers u x then
        some (((m.rangeValue x).map (f · u.value)).getD (default u.value)) else r := by
  obtain ⟨es, hes, hover⟩ := h.splitBy_subMap hu (default u.value)
    fun s => some (f s u.value)
  refine ⟨es, hes, fun r x => ?_⟩
  rw [hover]
  cases m.rangeValue x <;> rfl

variable {update : DistanceRangeMapImpl T}

/-- What one range of the map itself adds. -/
theorem RepInv.ownEntries_value (h : update.RepInv)
    (default : T → T) {t : RangeMapEntry T} (ht : t.lower < t.upper) :
    ∃ es, update.ownEntries default t = some es ∧ ∀ r x, overlay r es x =
      if Covers t x then (if (update.rangeValue x).isSome then r else some (default t.value)) else r := by
  obtain ⟨es, hes, hover⟩ := h.splitBy_subMap ht (default t.value) fun _ => none
  refine ⟨es, hes, fun r x => ?_⟩
  rw [hover]
  cases update.rangeValue x <;> rfl

theorem RepInv.updateMap_value (h : m.RepInv) (hu : update.RepInv) (f : T → T → T) (default : T → T) :
    Yields (m.updateMap update f default) fun x => match m.rangeValue x, update.rangeValue x with
        | some v, some w => some (f v w)
        | some v, none => some (default v)
        | none, some w => some (default w)
        | none, none => none := by
  obtain ⟨us, hulist, -, hus, -⟩ := hu.entriesInv
  obtain ⟨ts, htlist, htcalls, hts, -⟩ := h.entriesInv
  obtain ⟨fromUpdate, hfrom, hupdated⟩ := hus.mapM_overlay fun u hu' =>
    h.updateEntries_value f default (hus.pos u hu')
  obtain ⟨fromThis, hthis, hown⟩ := hts.mapM_overlay fun t ht => hu.ownEntries_value default (hts.pos t ht)
  have hclear : m.clear.RepInv := .inl ⟨rfl, rfl⟩
  obtain ⟨m', hm', hinv', hval'⟩ := (hclear.putMany_spec (fromUpdate.flatten ++ fromThis.flatten)).exists
  refine hinv'.yields ?_ fun x => ?_
  · simp only [updateMap, hulist, htcalls, bind_eq_bind, bind_some, hfrom, hthis, hm']
  · have hm : m.rangeValue x = (ts.find? (Covers · x)).map (·.value) := by
      rw [← h.valueOf_eq, valueOf, htlist, getD_some, entryValue]
    have hupdate : update.rangeValue x = (us.find? (Covers · x)).map (·.value) := by
      rw [← hu.valueOf_eq, valueOf, hulist, getD_some, entryValue]
    rw [hval', overlay_append, hupdated, hown, hm, hupdate]
    -- in an entry of each map, of one of them, or of none
    cases us.find? (Covers · x) with
    | none =>
      cases ts.find? (Covers · x) <;> rfl
    | some u =>
      cases ts.find? (Covers · x) <;> rfl

end Sub

/-- Where both maps have a value `updateMap` combines them, where one has it applies `default`;
    `updateMapIntersection` only changes the values where both have one. -/
theorem update_values {T U : Type} [DecidableEq T] (a b : DistanceRangeMapImpl T)
    (c : DistanceRangeMapImpl U) (ha : a.RepInv) (hb : b.RepInv) (hc : c.RepInv)
    (f : T → T → T) (default : T → T) (intersect : T → U → T) :
    (∃ a', a.updateMap b f default = some a' ∧
      ∀ x, a'.valueOf x = match a.valueOf x, b.valueOf x with
        | some v, some w => some (f v w)
        | some v, none => some (default v)
        | none, some w => some (default w)
        | none, none => none) ∧
    ∃ a', a.updateMapIntersection c intersect = some a' ∧
      ∀ x, a'.valueOf x = match a.valueOf x, c.valueOf x with
        | some v, some w => some (intersect v w)
        | r, _ => r := by
  simp only [ha.valueOf_eq, hb.valueOf_eq, hc.valueOf_eq]
  exact ⟨(ha.updateMap_value hb f default).valueOf, (ha.updateMapIntersection_value hc intersect).valueOf⟩

/-- Value 1 on `[10, 20)`, updated by itself with sums. -/
theorem update_values_tenToTwenty :
    tenToTwenty.RepInv ∧ ∃ a', tenToTwenty.updateMap tenToTwenty (· + ·) id = some a' ∧
      a'.valueOf ⟨12⟩ = some 2 := by
  obtain ⟨⟨a', ha', hval⟩, -⟩ := update_values tenToTwenty tenToTwenty tenToTwenty tenToTwenty_repInv
    tenToTwenty_repInv tenToTwenty_repInv (· + ·) id (· + ·)
  have htwelve : tenToTwenty.valueOf ⟨12⟩ = some 1 := by decide +kernel
  refine ⟨tenToTwenty_repInv, a', ha', ?_⟩
  rw [hval, htwelve]

/-- A shift that wraps around puts the bounds out of order, and `updateMap` then throws: it asks for the part
    of the other map between them. -/
theorem updateMap_unordered : ∃ m : DistanceRangeMapImpl ℕ, empty.put ⟨0⟩ ⟨1⟩ 1 = some m ∧
    (m.shiftPositions ⟨Int64.maxValue⟩).updateMap tenToTwenty (· + ·) id = none :=
  ⟨⟨[⟨0⟩, ⟨1⟩], [some 1]⟩, by decide +kernel⟩

end DistanceRangeMapImpl

end Osrd.RangeMap
