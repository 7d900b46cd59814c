import Osrd.Conflicts.Incremental

/-! Where `analyseConflicts` reports the first conflict (`earliestConflictTime`).

    Whether there is a conflict is decided by `minDelayWithoutConflicts`, for which a requirement and a use
    that only touch are apart. It is located by `earliestConflictTime`, which skips a use only when it
    starts strictly after the end of the requirement. So the scan looks for contacts: an overlap from its
    first instant on, or a use that starts exactly where the requirement ends. The report is right as long
    as no such use comes before the overlaps, nor first among those of the same instant. -/

namespace Osrd.Conflicts

open List Option
open WithTop (coe_le_coe coe_lt_coe)

section FirstConflict

variable {Time : Type} [LinearOrder Time] (uses : ParsedRequirements Time)

/-- Both the requirement and the use contain the instants from this one on, and none before. -/
def OverlapStarts (r : SpacingRequirement Time) (t : Time) : Prop :=
  ∃ use ∈ usesOf uses r, IsLeast {s | r.Needs r.zone s ∧ use.Has s} t

/-- A use of the zone starts exactly where the requirement ends. -/
def TouchesAt (r : SpacingRequirement Time) (t : Time) : Prop :=
  r.endTime = t ∧ ∃ use ∈ usesOf uses r, use.lowerEndpoint = t

/-- The earliest instant of an overlap, in a zone where one starts at that instant. -/
structure FirstConflict (rs : List (SpacingRequirement Time)) (t : Time) (zone : ZoneId) : Prop where
  earliest : IsLeast {s | ∃ r ∈ rs, ∃ use ∈ usesOf uses r, r.Needs r.zone s ∧ use.Has s} t
  starts : ∃ r ∈ rs, r.zone = zone ∧ OverlapStarts uses r t

/-- A requirement that is the first to meet a use at the end of its own time comes after an overlap, or at
    the start of one in its own zone. -/
def TouchesBehind (rs : List (SpacingRequirement Time)) : Prop :=
  ∀ pre r post e, rs = pre ++ r :: post → TouchesAt uses r e →
    (∀ q ∈ pre, ¬ OverlapStarts uses q e ∧ ¬ TouchesAt uses q e) →
    (∃ r' ∈ rs, ∃ t < e, OverlapStarts uses r' t) ∨
      ∃ r' ∈ rs, r'.zone = r.zone ∧ OverlapStarts uses r' e

/-- What one turn of `earliestConflictTime` finds: the first use that is not over before the requirement
    begins, unless it starts after the end. -/
def contact (r : SpacingRequirement Time) : Option Time :=
  match (uses r.zone).bind (·.higherEntry r.beginTime) with
  | none => none
  | some entry =>
      if r.endTime < (entry.lowerEndpoint : WithTop Time) then none
      else some (max entry.lowerEndpoint r.beginTime)

variable {uses} {r : SpacingRequirement Time}

/-! ### One requirement -/

variable (hlt : (r.beginTime : WithTop Time) < r.endTime)

include hlt in
/-- The first common instant of a requirement and a use. -/
theorem isLeast_common {use : TimeRange Time} (huse : (use.lowerEndpoint : WithTop Time) < use.upperEndpoint)
    (hbegin : (r.beginTime : WithTop Time) < use.upperEndpoint)
    (hend : (use.lowerEndpoint : WithTop Time) < r.endTime) :
    IsLeast {s | r.Needs r.zone s ∧ use.Has s} (max use.lowerEndpoint r.beginTime) := by
  refine ⟨⟨⟨rfl, le_max_right _ _, ?_⟩, le_max_left _ _, ?_⟩, fun s hs => max_le hs.2.1 hs.1.2.1⟩
  · exact max_lt hend hlt
  · exact max_lt huse hbegin

include hlt in
theorem contact_overlap_or_touch {t : Time}
    (h : contact uses r = some t) : OverlapStarts uses r t ∨ TouchesAt uses r t := by
  cases hmap : uses r.zone with
  | none => simp [contact, hmap] at h
  | some map =>
    have huses : usesOf uses r = map.ranges := by simp [usesOf, hmap]
    have hspec := map.higherEntry_spec r.beginTime
    cases hentry : map.higherEntry r.beginTime with
    | none => simp [contact, hmap, hentry] at h
    | some entry =>
      rw [hentry] at hspec
      obtain ⟨hmem, hkey, -⟩ := hspec
      simp only [contact, hmap, bind_some, hentry, ite_none_left_eq_some, some.injEq, not_lt] at h
      obtain ⟨hle, rfl⟩ := h
      rcases hle.lt_or_eq with hend | hend
      · left
        exact ⟨entry, huses ▸ hmem, isLeast_common hlt (map.nonempty entry hmem) hkey hend⟩
      · -- the use starts at the end, so after the begin
        right
        rw [← hend, coe_lt_coe] at hlt
        rw [max_eq_left hlt.le]
        exact ⟨hend.symm, entry, huses ▸ hmem, rfl⟩

include hlt in
/-- An overlap or a touch is what the turn finds, or a real overlap comes before it. -/
theorem contact_of_overlap_or_touch {e : Time}
    (h : OverlapStarts uses r e ∨ TouchesAt uses r e) : ∃ t ≤ e, contact uses r = some t ∧
      (t = e ∨ OverlapStarts uses r t) := by
  -- in both cases a use that is not over at the begin starts at `e` at the latest, and not after the end
  obtain ⟨use, huse, hbegin, hend, he⟩ : ∃ use ∈ usesOf uses r,
      (r.beginTime : WithTop Time) < use.upperEndpoint ∧
      (use.lowerEndpoint : WithTop Time) ≤ r.endTime ∧ e = max use.lowerEndpoint r.beginTime := by
    rcases h with ⟨use, huse, hleast⟩ | ⟨hend, use, huse, hlower⟩
    · obtain ⟨hneeds, hhas⟩ := hleast.1
      have hbegin := (coe_le_coe.mpr hneeds.2.1).trans_lt hhas.2
      have hend := (coe_le_coe.mpr hhas.1).trans_lt hneeds.2.2
      have hmem := coe_le_coe.mpr hhas.1
      exact ⟨use, huse, hbegin, hend.le, hleast.unique
        (isLeast_common hlt (hmem.trans_lt hhas.2) hbegin hend)⟩
    · cases hmap : uses r.zone with
      | none => simp [usesOf, hmap] at huse
      | some map =>
        have hnonempty := map.nonempty use (by simpa [usesOf, hmap] using huse)
        rw [hend, ← hlower] at hlt
        exact ⟨use, huse, hlt.trans hnonempty, by rw [hlower, hend],
          by rw [max_eq_left (coe_lt_coe.mp hlt).le, hlower]⟩
  cases hmap : uses r.zone with
  | none => simp [usesOf, hmap] at huse
  | some map =>
    have huses : usesOf uses r = map.ranges := by simp [usesOf, hmap]
    rw [huses] at huse
    have hspec := map.higherEntry_spec r.beginTime
    cases hentry : map.higherEntry r.beginTime with
    | none =>
      rw [hentry] at hspec
      exact absurd hbegin (hspec use huse).not_gt
    | some entry =>
      rw [hentry] at hspec
      obtain ⟨hmem, hkey, hothers⟩ := hspec
      have hentry_lt := map.nonempty entry hmem
      rcases hothers use huse with hle | rfl | hafter
      · exact absurd hbegin hle.not_gt
      · refine ⟨e, le_rfl, ?_, .inl rfl⟩
        simp [contact, hmap, hentry, hend.not_gt, he]
      · -- the use found comes before this one, so it is really overlapped, and earlier
        have hover := (hentry_lt.trans_le hafter).trans_le hend
        refine ⟨max entry.lowerEndpoint r.beginTime, ?_, ?_, .inr
          ⟨entry, huses ▸ hmem, isLeast_common hlt hentry_lt hkey hover⟩⟩
        · have hlower := coe_le_coe.mp (hentry_lt.trans_le hafter).le
          exact he ▸ max_le_max_right _ hlower
        · simp [contact, hmap, hentry, hover.le.not_gt]

/-! ### The scan -/

theorem earliestConflictTurn_eq (res : Option (Time × ZoneId)) : earliestConflictTurn uses res r =
      match contact uses r, res with
      | none, res => res
      | some t, none => some (t, r.zone)
      | some t, some (time, zone) => if t < time then some (t, r.zone) else some (time, zone) := by
  rw [earliestConflictTurn, contact]
  cases (uses r.zone).bind (·.higherEntry r.beginTime) with
  | none => rfl
  | some entry =>
    simp only
    split
    · rfl
    · cases res <;> rfl

/-- The scan keeps the first of the earliest contacts. -/
theorem earliestConflictTime_first {t : Time} {zone : ZoneId} : ∀ {rs : List (SpacingRequirement Time)},
    earliestConflictTime uses rs = some (t, zone) →
    ∃ pre r post, rs = pre ++ r :: post ∧ r.zone = zone ∧ contact uses r = some t ∧
      (∀ q ∈ pre, ∀ c, contact uses q = some c → t < c) ∧
      ∀ q ∈ post, ∀ c, contact uses q = some c → t ≤ c := by
  intro rs
  induction rs using reverseRecOn generalizing t zone with
  | nil => simp [earliestConflictTime]
  | append_singleton rs r ih =>
    intro h
    rw [earliestConflictTime, foldl_append, ← earliestConflictTime, foldl_cons,
      foldl_nil, earliestConflictTurn_eq] at h
    -- the requirements read so far keep what they have, and `r` comes last
    have hkeep : ∀ {t zone}, earliestConflictTime uses rs = some (t, zone) →
        (∀ c, contact uses r = some c → t ≤ c) →
        ∃ pre r' post, rs ++ [r] = pre ++ r' :: post ∧ r'.zone = zone ∧
          contact uses r' = some t ∧
          (∀ q ∈ pre, ∀ c, contact uses q = some c → t < c) ∧
          ∀ q ∈ post, ∀ c, contact uses q = some c → t ≤ c := by
      intro t zone hres hr
      obtain ⟨pre, r', post, rfl, hzone, hcontact, hpre, hpost⟩ := ih hres
      refine ⟨pre, r', post ++ [r], by simp, hzone, hcontact, hpre, fun q hq => ?_⟩
      rcases mem_append.mp hq with hq | hq
      · exact hpost q hq
      · exact mem_singleton.mp hq ▸ hr
    cases hcontact : contact uses r with
    | none =>
      rw [hcontact] at h
      exact hkeep h (by simp [hcontact])
    | some c =>
      rw [hcontact] at h
      cases hres : earliestConflictTime uses rs with
      | none =>
        rw [hres] at h
        obtain ⟨rfl, rfl⟩ := Prod.mk.inj (some.inj h)
        refine ⟨rs, r, [], rfl, rfl, hcontact, fun q hq c' hc' => ?_, by simp⟩
        -- nothing was found before
        obtain ⟨pre, post, rfl⟩ := append_of_mem hq
        have hsome : (earliestConflictTime uses (pre ++ q :: post)).isSome := by
          rw [earliestConflictTime, foldl_append, foldl_cons]
          refine foldl_earliestConflictTurn_isSome ?_
          rw [earliestConflictTurn_eq, hc']
          cases pre.foldl (earliestConflictTurn uses) none with
          | none => rfl
          | some found =>
            simp only
            split <;> rfl
        rw [hres] at hsome
        cases hsome
      | some found =>
        rw [hres] at h
        simp only at h
        split at h
        · next hearlier =>
          obtain ⟨rfl, rfl⟩ := Prod.mk.inj (some.inj h)
          obtain ⟨pre, r', post, rfl, -, hcontact', hpre, hpost⟩ := ih hres
          refine ⟨_, r, [], rfl, rfl, hcontact, fun q hq c' hc' => ?_, by simp⟩
          rcases mem_append.mp hq with hq | hq
          · exact hearlier.trans (hpre q hq c' hc')
          rcases mem_cons.mp hq with rfl | hq
          · rw [hcontact'] at hc'
            exact some.inj hc' ▸ hearlier
          · exact hearlier.trans_le (hpost q hq c' hc')
        · next hlater =>
          obtain ⟨rfl, rfl⟩ := Prod.mk.inj (some.inj h)
          refine hkeep hres fun c' hc' => ?_
          rw [hcontact] at hc'
          exact some.inj hc' ▸ not_lt.mp hlater

theorem earliestConflictTime_firstConflict_iff {rs : List (SpacingRequirement Time)}
    (hlt : ∀ r ∈ rs, (r.beginTime : WithTop Time) < r.endTime) {t : Time} {zone : ZoneId}
    (h : earliestConflictTime uses rs = some (t, zone)) :
    FirstConflict uses rs t zone ↔ TouchesBehind uses rs := by
  obtain ⟨pre, r, post, rfl, rfl, hcontact, hpre, hpost⟩ := earliestConflictTime_first h
  have hmin : ∀ q ∈ pre ++ r :: post, ∀ c, contact uses q = some c → t ≤ c := by
    intro q hq c hc
    rcases mem_append.mp hq with hq | hq
    · exact (hpre q hq c hc).le
    rcases mem_cons.mp hq with rfl | hq
    · exact (some.inj (hcontact.symm.trans hc)).le
    · exact hpost q hq c hc
  have hle : ∀ q ∈ pre ++ r :: post, ∀ e,
      OverlapStarts uses q e ∨ TouchesAt uses q e → t ≤ e := by
    intro q hq e he
    obtain ⟨c, hce, hc, -⟩ := contact_of_overlap_or_touch (hlt q hq) he
    exact (hmin q hq c hc).trans hce
  constructor
  · intro hfirst pre' r' post' e hsplit htouch hfree
    have hr' : r' ∈ pre ++ r :: post := by simp [hsplit]
    obtain ⟨c, hce, hc, hwhich⟩ := contact_of_overlap_or_touch (hlt r' hr') (.inr htouch)
    rcases hce.lt_or_eq with hce | rfl
    · exact .inl ⟨r', hr', c, hce, hwhich.resolve_left hce.ne⟩
    obtain ⟨r₀, hr₀, hzone, hover⟩ := hfirst.starts
    rcases (hmin r' hr' c hc).lt_or_eq with hlt' | rfl
    · exact .inl ⟨r₀, hr₀, t, hlt', hover⟩
    -- both are the first to meet something at that instant
    rcases append_eq_append_iff.mp hsplit with ⟨l, rfl, hl⟩ | ⟨l, rfl, hl⟩
    · cases l with
      | nil =>
        obtain ⟨rfl, -⟩ := cons.inj hl
        exact .inr ⟨r₀, hr₀, hzone, hover⟩
      | cons q l =>
        obtain ⟨rfl, -⟩ := cons.inj hl
        have hr : r ∈ pre ++ r :: post := by simp
        have hnot := hfree r (by simp)
        exact absurd (contact_overlap_or_touch (hlt r hr) hcontact) (not_or.mpr hnot)
    · cases l with
      | nil =>
        obtain ⟨rfl, -⟩ := cons.inj hl
        exact .inr ⟨r₀, hr₀, hzone, hover⟩
      | cons q l =>
        obtain ⟨rfl, -⟩ := cons.inj hl
        exact absurd (hpre r' (by simp) t hc) (lt_irrefl t)
  · intro hbehind
    have hr : r ∈ pre ++ r :: post := by simp
    obtain ⟨r₀, hr₀, hzone, hover⟩ : ∃ r' ∈ pre ++ r :: post, r'.zone = r.zone ∧
        OverlapStarts uses r' t := by
      rcases contact_overlap_or_touch (hlt r hr) hcontact with hover | htouch
      · exact ⟨r, hr, rfl, hover⟩
      have hfree : ∀ q ∈ pre, ¬ OverlapStarts uses q t ∧
          ¬ TouchesAt uses q t := by
        intro q hq
        refine not_or.mp fun hmeets => ?_
        have hmem := mem_append_left (r :: post) hq
        obtain ⟨c, hct, hc, -⟩ := contact_of_overlap_or_touch (hlt q hmem) hmeets
        exact absurd (hpre q hq c hc) hct.not_gt
      rcases hbehind pre r post t rfl htouch hfree with ⟨r', hr', s, hs, hover⟩ | hsame
      · exact absurd (hle r' hr' s (.inl hover)) hs.not_ge
      · exact hsame
    obtain ⟨use, huse, hleast⟩ := hover
    refine ⟨⟨⟨r₀, hr₀, use, huse, hleast.1⟩, ?_⟩, r₀, hr₀, hzone, use, huse, hleast⟩
    rintro s ⟨q, hq, use', huse', hneeds, hhas⟩
    have hbegin := (coe_le_coe.mpr hneeds.2.1).trans_lt hhas.2
    have hend := (coe_le_coe.mpr hhas.1).trans_lt hneeds.2.2
    have hnonempty := (coe_le_coe.mpr hhas.1).trans_lt hhas.2
    have hfirst := isLeast_common (hlt q hq) hnonempty hbegin hend
    exact (hle q hq _ (.inl ⟨use', huse', hfirst⟩)).trans (hfirst.2 ⟨hneeds, hhas⟩)

end FirstConflict

/-! ### The response -/

section Response

variable {Time : Type} [LinearOrder Time] [AddCommGroup Time]

/-- The response locates the first conflict exactly when no touching use comes in its place. -/
theorem analyseConflicts_firstConflict_iff (uses : ParsedRequirements Time)
    (spacingRequirements : List (SpacingRequirement Time))
    (hlt : ∀ r ∈ spacingRequirements, (r.beginTime : WithTop Time) < r.endTime)
    {minDelay : WithTop Time} {firstConflictTime : Time} {conflictingZone : ZoneId}
    (h : analyseConflicts uses spacingRequirements =
      some (.ConflictResponse minDelay firstConflictTime conflictingZone)) :
    FirstConflict uses spacingRequirements firstConflictTime conflictingZone ↔
      TouchesBehind uses spacingRequirements := by
  refine earliestConflictTime_firstConflict_iff hlt ?_
  rw [analyseConflicts, bind_eq_bind, bind_eq_some_iff] at h
  obtain ⟨d, -, hresp⟩ := h
  split at hresp
  · rw [bind_eq_bind, bind_eq_some_iff] at hresp
    obtain ⟨⟨time, zone⟩, hearliest, hsame⟩ := hresp
    cases some.inj hsame
    exact hearliest
  · cases hresp

/-- A requirement of `[6, 9)` alone meets the first use from its own start on. -/
theorem analyseConflicts_firstConflict_alone : FirstConflict twoUses [⟨0, 6, (9 : ℤ), true⟩] 6 0 := by
  have hresp : analyseConflicts twoUses [⟨0, 6, (9 : ℤ), true⟩] =
      some (.ConflictResponse ((14 : ℤ) : WithTop ℤ) 6 0) := rfl
  refine (analyseConflicts_firstConflict_iff twoUses _ (by decide) hresp).mpr ?_
  intro pre r post e hsplit ⟨hend, use, huse, hlower⟩ _
  obtain rfl : r = ⟨0, 6, (9 : ℤ), true⟩ := mem_singleton.mp (hsplit ▸ mem_append_right pre mem_cons_self)
  have hstarts : ∀ use ∈ usesOf twoUses ⟨0, 6, (9 : ℤ), true⟩, use.lowerEndpoint ≠ 9 := by decide
  rw [← WithTop.coe_inj.mp hend] at hlower
  exact absurd hlower (hstarts use huse)

/-- A requirement of `[2, 5)`, which ends where the first use starts, hides the overlap from 6 on. -/
theorem analyseConflicts_reports_touch :
    let requirements : List (SpacingRequirement ℤ) := [⟨0, 2, (5 : ℤ), true⟩, ⟨0, 6, (9 : ℤ), true⟩]
    analyseConflicts twoUses requirements =
        some (.ConflictResponse ((18 : ℤ) : WithTop ℤ) 5 0) ∧
      ¬ FirstConflict twoUses requirements 5 0 := by
  refine ⟨rfl, fun h => ?_⟩
  obtain ⟨r, hr, use, huse, hneeds, hhas⟩ := h.earliest.1
  simp only [mem_cons, not_mem_nil, or_false] at hr
  rcases hr with rfl | rfl
  · exact absurd hneeds.2.2 (by decide)
  · exact absurd hneeds.2.1 (by decide)

end Response

end Osrd.Conflicts
