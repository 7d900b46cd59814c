import Osrd.Conflicts.Merge

/-! Model of the conflict detector (`core/.../conflicts/Conflicts.kt`, `ConflictDetectorImpl` and the public
    `detectConflicts`).

    The requirements of all the trains and work schedules are organised by zone, those of each zone are
    grouped by the sweep of `Groups`, each group becomes a conflict, and the conflicts are merged. The
    grouping does not look at whose requirements it compares. So a conflict may be that of one train with
    itself, but only through two of its own requirements that conflict. Times are exact; an end time may be
    infinite. -/

namespace Osrd.Conflicts

open List ListsByKey

/-! ### The code -/

/-- What a route asks of one of its zones. -/
structure RouteZone where
  zone : ZoneId
  entryDetector : ℕ
  exitDetector : ℕ
  switches : Finmap fun _ : String => String
  endTime : WithTop ℚ

structure RoutingRequirement where
  route : ℕ
  beginTime : ℚ
  zones : List RouteZone

/-- The requirements of one train or work schedule, those of routes included. -/
structure AllRequirements extends Requirements ℚ where
  routingRequirements : List RoutingRequirement

namespace ConflictDetector

structure RoutingZoneConfig where
  entryDet : ℕ
  exitDet : ℕ
  switches : Finmap fun _ : String => String
deriving DecidableEq

structure RoutingZoneRequirement where
  trainId : String
  route : ℕ
  beginTime : WithTop ℚ
  endTime : WithTop ℚ
  config : RoutingZoneConfig

instance : ResourceRequirement RoutingZoneRequirement (WithTop ℚ) where
  beginTime := RoutingZoneRequirement.beginTime
  endTime := RoutingZoneRequirement.endTime

/-- The spacing requirements of one train or work schedule, each with its zone. -/
def spacingEntries (req : AllRequirements) : List (ZoneId × SpacingZoneRequirement (WithTop ℚ)) :=
  req.spacingRequirements.map fun spacingReq =>
    (spacingReq.zone, ⟨req.id, spacingReq.beginTime, spacingReq.endTime⟩)

/-- The zones of a route begin together, 5 s earlier when one of them has switches. -/
def routeEntries (trainId : String) (routeRequirements : RoutingRequirement) :
    List (ZoneId × RoutingZoneRequirement) :=
  let beginTime :=
    if routeRequirements.zones.any fun it => it.switches ≠ ∅ then routeRequirements.beginTime - 5
    else routeRequirements.beginTime
  routeRequirements.zones.map fun zoneRequirement =>
    (zoneRequirement.zone, ⟨trainId, routeRequirements.route, beginTime, zoneRequirement.endTime,
      ⟨zoneRequirement.entryDetector, zoneRequirement.exitDetector, zoneRequirement.switches⟩⟩)

def routingEntries (trainRequirements : AllRequirements) : List (ZoneId × RoutingZoneRequirement) :=
  trainRequirements.routingRequirements.flatMap (routeEntries trainRequirements.id.id)

variable (requirements : List AllRequirements)

/-- `spacingZoneRequirements`: the requirements organised by zone. -/
def generateSpacingRequirements : List (ZoneId × List (SpacingZoneRequirement (WithTop ℚ))) :=
  collect id (requirements.flatMap spacingEntries)

def generateRoutingRequirements : List (ZoneId × List RoutingZoneRequirement) :=
  collect id (requirements.flatMap routingEntries)

section Groups

open ResourceRequirement

variable {ReqT : Type} [ResourceRequirement ReqT (WithTop ℚ)]

/-- The first begin and the last end; `minBy` would throw on an empty group, and no group is. -/
def groupTimes (conflictGroup : List ReqT) : Option (WithTop ℚ × WithTop ℚ) := do
  let beginTime ← (conflictGroup.map beginTime).min?
  let endTime ← (conflictGroup.map endTime).max?
  return (beginTime, endTime)

/-- The requirements that the indices of a group refer to. -/
def groupMembers (requirements : List ReqT) (conflictGroup : List ℕ) : List ReqT :=
  conflictGroup.filterMap (requirements[·]?)

/-- The conflicts of the groups of every zone. -/
def detectZoneConflicts (conflicting : ReqT → ReqT → Bool)
    (toConflict : ZoneId → List ReqT → Option (Conflict (WithTop ℚ)))
    (zoneRequirements : List (ZoneId × List ReqT)) : List (Conflict (WithTop ℚ)) :=
  zoneRequirements.flatMap fun entry =>
    let (requirements, conflictGroups) := detectConflicts entry.2 conflicting
    conflictGroups.filterMap fun conflictGroup =>
      toConflict entry.1 (groupMembers requirements conflictGroup)

end Groups

/-- The ids of that type. -/
def idsOfType (type : RequirementType)
    (conflictGroup : List (SpacingZoneRequirement (WithTop ℚ))) : List String :=
  (conflictGroup.filter (·.id.type = type)).map (·.id.id)

/-- A group of work schedules only is skipped. -/
def spacingConflict (zone : ZoneId) (conflictGroup : List (SpacingZoneRequirement (WithTop ℚ))) :
    Option (Conflict (WithTop ℚ)) := do
  let (beginTime, endTime) ← groupTimes conflictGroup
  if conflictGroup.all (·.id.type = .WORK_SCHEDULE) then none
  else
    some ⟨beginTime, endTime, .SPACING, [⟨zone, beginTime, endTime⟩],
      idsOfType .TRAIN conflictGroup, idsOfType .WORK_SCHEDULE conflictGroup⟩

def routingConflict (zone : ZoneId) (conflictGroup : List RoutingZoneRequirement) :
    Option (Conflict (WithTop ℚ)) := do
  let (beginTime, endTime) ← groupTimes conflictGroup
  some ⟨beginTime, endTime, .ROUTING, [⟨zone, beginTime, endTime⟩], conflictGroup.map (·.trainId), []⟩

/-- Spacing requirements are exclusive, so any overlap is a conflict. -/
def detectSpacingConflicts : List (Conflict (WithTop ℚ)) :=
  detectZoneConflicts (fun _ _ => true) spacingConflict (generateSpacingRequirements requirements)

def detectRoutingConflicts : List (Conflict (WithTop ℚ)) :=
  detectZoneConflicts (fun a b => a.config ≠ b.config) routingConflict
    (generateRoutingRequirements requirements)

def checkConflicts : List (Conflict (WithTop ℚ)) :=
  detectSpacingConflicts requirements ++ detectRoutingConflicts requirements

/-- The public `detectConflicts`. -/
def detectAll (visit : HashTable.Visit (ConflictingGroupKey × List (Conflict (WithTop ℚ))))
    (requirements : List AllRequirements) : List (Conflict (WithTop ℚ)) :=
  mergeConflicts visit (checkConflicts requirements)

/-! ### Whose conflicts -/

/-- How many trains and work schedules the conflict involves. -/
def involved (c : Conflict (WithTop ℚ)) : ℕ :=
  c.trainIds.toFinset.card + c.workScheduleIds.toFinset.card

/-- The second requirement begins while the first one lasts. -/
def Meets {ReqT : Type} [ResourceRequirement ReqT (WithTop ℚ)] (a b : ReqT) : Prop :=
  ResourceRequirement.beginTime a ≤ ResourceRequirement.beginTime b ∧
    ResourceRequirement.beginTime b < ResourceRequirement.endTime a

/-- Two of the train's own spacing requirements for one zone overlap. -/
def OverlapsItself (req : AllRequirements) : Prop :=
  ∃ a b : SpacingRequirement ℚ, [a, b].Subperm req.spacingRequirements ∧ a.zone = b.zone ∧
    a.beginTime ≤ b.beginTime ∧ (b.beginTime : WithTop ℚ) < a.endTime

/-- The routing requirements for a zone, of all the trains. -/
def routingOf (reqs : List AllRequirements) (zone : ZoneId) : List RoutingZoneRequirement :=
  valuesOf id (reqs.flatMap routingEntries) zone

/-- Two routing requirements for one zone that are recorded under the id conflict. -/
def RoutesConflict (reqs : List AllRequirements) (trainId : String) : Prop :=
  ∃ zone a b, [a, b].Subperm (routingOf reqs zone) ∧ a.trainId = trainId ∧
    b.trainId = trainId ∧ a.config ≠ b.config ∧ Meets a b

variable {c : Conflict (WithTop ℚ)}

section Grouped

variable {ReqT : Type} [ResourceRequirement ReqT (WithTop ℚ)] {conflicting : ReqT → ReqT → Bool}

/-- A group comes from two requirements of the zone in conflict. -/
theorem exists_conflict_of_group {reqs : List ReqT} {g : List ℕ}
    (hg : g ∈ (detectConflicts reqs conflicting).2) :
    ∃ a b, [a, b].Subperm reqs ∧ conflicting a b ∧ Meets a b ∧
      a ∈ groupMembers (detectConflicts reqs conflicting).1 g ∧
      b ∈ groupMembers (detectConflicts reqs conflicting).1 g := by
  have hsorted := pairwise_sortByBeginTime reqs
  obtain ⟨hswept, -⟩ := @sweep_spec ReqT (WithTop ℚ) _ _ _ conflicting hsorted
    (sortByBeginTime reqs).length
  obtain ⟨x, hx⟩ := mem_iff_getElem?.mp hg
  obtain ⟨i, j, r, rfl, hedge, -, -, -⟩ := hswept.shape x g hx
  have hj : j < (sortByBeginTime reqs).length := FoundConflict.lt_length hedge
  obtain ⟨hij, hactive, hconflicting⟩ := hedge
  have hi := hij.trans hj
  have hgeti := getElem?_eq_getElem hi
  have hgetj := getElem?_eq_getElem hj
  have hpair : [(sortByBeginTime reqs)[i], (sortByBeginTime reqs)[j]].Sublist
      (sortByBeginTime reqs) := by
    have hincreasing : [(⟨i, hi⟩ : Fin _), ⟨j, hj⟩].Pairwise (· < ·) := by simpa using hij
    exact map_getElem_sublist hincreasing
  refine ⟨_, _, hpair.subperm.trans (perm_insertionSort _ reqs).subperm, ?_, ⟨?_, ?_⟩, ?_, ?_⟩
  · simpa [conflictingAt, hgeti, hgetj] using hconflicting
  · exact pairwise_iff_getElem.mp hsorted i j hi hj hij
  · simpa [stillActive, hgeti, hgetj] using hactive
  · exact mem_filterMap.mpr ⟨i, by simp, hgeti⟩
  · exact mem_filterMap.mpr ⟨j, by simp, hgetj⟩

theorem mem_detectZoneConflicts {toConflict : ZoneId → List ReqT → Option (Conflict (WithTop ℚ))}
    {entries : List (ZoneId × ReqT)}
    (hc : c ∈ detectZoneConflicts conflicting toConflict (collect id entries)) :
    ∃ zone members a b, toConflict zone members = some c ∧
      [a, b].Subperm (valuesOf id entries zone) ∧ conflicting a b ∧ Meets a b ∧
      a ∈ members ∧ b ∈ members := by
  obtain ⟨entry, hentry, hc⟩ := mem_flatMap.mp hc
  obtain ⟨g, hg, hc⟩ := mem_filterMap.mp hc
  obtain ⟨hvalues, -⟩ := (collected_collect id entries).values entry hentry
  obtain ⟨a, b, hpair, hconflicting, hmeets, ha, hb⟩ := exists_conflict_of_group hg
  rw [hvalues] at hpair
  exact ⟨_, _, a, b, hc, hpair, hconflicting, hmeets, ha, hb⟩

end Grouped

/-- The conflict is reported for one train only. -/
def Alone (c : Conflict (WithTop ℚ)) (trainId : String) : Prop :=
  c.trainIds.toFinset = {trainId} ∧ c.workScheduleIds.toFinset = ∅

theorem subset_singleton_of_card_le_one {ids : Finset String} {id : String} (hid : id ∈ ids)
    (hcard : ids.card ≤ 1) : ids = {id} :=
  Finset.eq_singleton_iff_unique_mem.mpr
    ⟨hid, fun id' hid' => Finset.card_le_one.mp hcard id' hid' id hid⟩

theorem alone_of_involved_lt {id : String} (hid : id ∈ c.trainIds) (hlt : involved c < 2) : Alone c id := by
  have hmem : id ∈ c.trainIds.toFinset := mem_toFinset.mpr hid
  have hpos : 0 < c.trainIds.toFinset.card := Finset.card_pos.mpr ⟨id, hmem⟩
  rw [involved] at hlt
  exact ⟨subset_singleton_of_card_le_one hmem (by omega), Finset.card_eq_zero.mp (by omega)⟩

variable {reqs : List AllRequirements}

/-- The requirements of a zone with one id are those of its train or work schedule. -/
theorem filter_spacing_id (hids : (reqs.map (·.id)).Nodup) {req : AllRequirements}
    (hreq : req ∈ reqs) (zone : ZoneId) :
    (valuesOf id (reqs.flatMap spacingEntries) zone).filter (·.id = req.id) =
      (req.spacingRequirements.filter (·.zone = zone)).map fun r => ⟨req.id, r.beginTime, r.endTime⟩ := by
  have hown : (reqs.flatMap spacingEntries).filter (fun e => e.2.id = req.id) =
      spacingEntries req := by
    refine filter_flatMap_of_key (pairwise_map.mp hids) ?_ hreq rfl
    intro req' _ e he
    obtain ⟨r, -, rfl⟩ := mem_map.mp he
    rfl
  rw [valuesOf, filter_map, filter_comm]
  simp only [Function.comp_def]
  rw [hown, spacingEntries, filter_map, map_map]
  rfl

variable {conflictGroup : List (SpacingZoneRequirement (WithTop ℚ))}

/-- What a group of spacing requirements becomes; a train is among it. -/
theorem spacingConflict_eq_some {zone : ZoneId} (h : spacingConflict zone conflictGroup = some c) :
    c.conflictType = .SPACING ∧ c.trainIds = idsOfType .TRAIN conflictGroup ∧
      c.workScheduleIds = idsOfType .WORK_SCHEDULE conflictGroup ∧
      ∃ r ∈ conflictGroup, r.id.type = .TRAIN := by
  rw [spacingConflict, Option.bind_eq_bind, Option.bind_eq_some_iff] at h
  obtain ⟨times, -, h⟩ := h
  rw [Option.ite_none_left_eq_some, Option.some.injEq] at h
  obtain ⟨hall, rfl⟩ := h
  refine ⟨rfl, rfl, rfl, ?_⟩
  rw [all_eq_true] at hall
  push Not at hall
  obtain ⟨r, hr, htype⟩ := hall
  refine ⟨r, hr, ?_⟩
  cases hkind : r.id.type with
  | TRAIN => rfl
  | WORK_SCHEDULE => simp [hkind] at htype

theorem mem_idsOfType {type : RequirementType} {r : SpacingZoneRequirement (WithTop ℚ)}
    (hr : r ∈ conflictGroup) (htype : r.id.type = type) : r.id.id ∈ idsOfType type conflictGroup :=
  mem_map_of_mem (mem_filter.mpr ⟨hr, by simpa using htype⟩)

/-- A group that is reported for one train only has requirements of that train only. -/
theorem id_eq_of_alone {zone : ZoneId} (h : spacingConflict zone conflictGroup = some c) {trainId : String}
    (halone : Alone c trainId) : ∀ r ∈ conflictGroup, r.id = ⟨trainId, .TRAIN⟩ := by
  obtain ⟨-, htrains, hschedules, -⟩ := spacingConflict_eq_some h
  obtain ⟨hone, hnone⟩ := halone
  intro r hr
  cases hkind : r.id.type with
  | TRAIN =>
    have hmem := mem_toFinset.mpr (mem_idsOfType hr hkind)
    rw [← htrains, hone, Finset.mem_singleton] at hmem
    rw [← hmem, ← hkind]
  | WORK_SCHEDULE =>
    have hmem := mem_toFinset.mpr (mem_idsOfType hr hkind)
    rw [← hschedules, hnone] at hmem
    simp at hmem

theorem exists_pair_of_subperm_map {α β : Type} {f : α → β} {l : List α} {a b : β}
    (h : [a, b].Subperm (l.map f)) : ∃ x y, [x, y].Subperm l ∧ f x = a ∧ f y = b := by
  obtain ⟨k, hk, hsub⟩ := h
  obtain ⟨l', hl', rfl⟩ := sublist_map_iff.mp hsub
  obtain ⟨x, y, rfl⟩ : ∃ x y, l' = [x, y] := by
    have hlength := hk.length_eq
    rw [length_map] at hlength
    exact length_eq_two.mp hlength
  rcases pair_perm.mp hk.symm with heq | heq
  · obtain ⟨hx, hy⟩ : f x = a ∧ f y = b := by simpa using heq
    exact ⟨x, y, hl'.subperm, hx, hy⟩
  · obtain ⟨hx, hy⟩ : f x = b ∧ f y = a := by simpa using heq
    exact ⟨y, x, (List.Perm.swap x y []).subperm.trans hl'.subperm, hy, hx⟩

theorem spacing_alone (hids : (reqs.map (·.id)).Nodup)
    (hc : c ∈ detectSpacingConflicts reqs) (hlt : involved c < 2) :
    c.conflictType = .SPACING ∧ ∃ req ∈ reqs, req.id.type = .TRAIN ∧
      Alone c req.id.id ∧ OverlapsItself req := by
  obtain ⟨zone, members, a, b, hconflict, hpair, -, hmeets, ha, hb⟩ := mem_detectZoneConflicts hc
  obtain ⟨hspacing, htrains, -, train, htrain, htype⟩ := spacingConflict_eq_some hconflict
  have hmem := mem_idsOfType htrain htype
  rw [← htrains] at hmem
  have halone := alone_of_involved_lt hmem hlt
  have hid := id_eq_of_alone hconflict halone
  -- the two reqs come from the reqs with that id
  obtain ⟨req, hreq, hreqid⟩ : ∃ req ∈ reqs, req.id = ⟨train.id.id, .TRAIN⟩ := by
    have hmem := hpair.subset mem_cons_self
    obtain ⟨e, he, hea⟩ := mem_map.mp hmem
    obtain ⟨req, hreq, he⟩ := mem_flatMap.mp (mem_filter.mp he).1
    obtain ⟨r, -, rfl⟩ := mem_map.mp he
    refine ⟨req, hreq, ?_⟩
    rw [← hid a ha, ← hea]
  have hown := List.Subperm.filter (fun r => decide (r.id = req.id)) hpair
  have hsame : [a, b].filter (fun r => decide (r.id = req.id)) = [a, b] := by
    simp [hid a ha, hid b hb, hreqid]
  rw [filter_spacing_id hids hreq, hsame] at hown
  obtain ⟨x, y, hxy, rfl, rfl⟩ := exists_pair_of_subperm_map hown
  have hzone : ∀ r ∈ [x, y], r.zone = zone := fun r hr =>
    of_decide_eq_true (mem_filter.mp (hxy.subset hr)).2
  refine ⟨hspacing, req, hreq, ?_, ?_, x, y, hxy.trans filter_sublist.subperm,
    (hzone x (by simp)).trans (hzone y (by simp)).symm, WithTop.coe_le_coe.mp hmeets.1, hmeets.2⟩
  · rw [hreqid]
  · rw [hreqid]
    exact halone

theorem routing_alone (hc : c ∈ detectRoutingConflicts reqs) (hlt : involved c < 2) :
    c.conflictType = .ROUTING ∧ ∃ trainId, Alone c trainId ∧ RoutesConflict reqs trainId := by
  obtain ⟨zone, members, a, b, hconflict, hpair, hconfig, hmeets, ha, hb⟩ := mem_detectZoneConflicts hc
  rw [routingConflict, Option.bind_eq_bind, Option.bind_eq_some_iff] at hconflict
  obtain ⟨⟨beginTime, endTime⟩, -, hconflict⟩ := hconflict
  cases hconflict
  have halone := alone_of_involved_lt (mem_map_of_mem ha) hlt
  refine ⟨rfl, a.trainId, halone, zone, a, b, hpair, rfl, ?_, of_decide_eq_true hconfig, hmeets⟩
  have hb' : b.trainId ∈ (members.map (·.trainId)).toFinset := mem_toFinset.mpr (mem_map_of_mem hb)
  rw [halone.1] at hb'
  exact Finset.mem_singleton.mp hb'

/-- A merged conflict has the type and the ids of one that was detected. -/
theorem exists_checked {Time : Type} [LinearOrder Time] [Zero Time]
    {visit : HashTable.Visit (ConflictingGroupKey × List (Conflict Time))}
    {conflicts : List (Conflict Time)} {c : Conflict Time} (hc : c ∈ mergeConflicts visit conflicts) :
    ∃ c₀ ∈ conflicts, c₀.HasKey c.conflictType (c.trainIds.toFinset, c.workScheduleIds.toFinset) := by
  have hmap : ∀ conflictType, c ∈ mergeMap visit (resourcesOf conflictType conflicts) conflictType →
      ∃ c₀ ∈ conflicts, c₀.HasKey c.conflictType (c.trainIds.toFinset, c.workScheduleIds.toFinset) := by
    intro conflictType hc
    obtain ⟨group, hgroup, hc⟩ := mem_flatMap.mp hc
    obtain ⟨htype, htrains, hschedules⟩ := mem_mergeGroup hc
    obtain ⟨hvalues, hne⟩ := mem_resourcesOf (visit.mem_order.mp hgroup)
    obtain ⟨c₀, hc₀⟩ := exists_mem_of_ne_nil _ hne
    rw [hvalues] at hc₀
    obtain ⟨hmem, hhas⟩ := mem_filter.mp hc₀
    refine ⟨c₀, hmem, ?_⟩
    rw [htype, htrains, hschedules]
    exact of_decide_eq_true hhas
  rcases mem_append.mp hc with hc | hc
  · exact hmap .SPACING hc
  · exact hmap .ROUTING hc

/-- A conflict involves two trains or work schedules, or is that of one train of which two requirements
    conflict with each other. -/
theorem detectAll_involved (visit : HashTable.Visit (ConflictingGroupKey × List (Conflict (WithTop ℚ))))
    (reqs : List AllRequirements) (hids : (reqs.map (·.id)).Nodup) :
    ∀ c ∈ detectAll visit reqs, 2 ≤ involved c ∨
      (c.conflictType = .SPACING ∧ ∃ req ∈ reqs, req.id.type = .TRAIN ∧
        Alone c req.id.id ∧ OverlapsItself req) ∨
      (c.conflictType = .ROUTING ∧ ∃ trainId, Alone c trainId ∧ RoutesConflict reqs trainId) := by
  intro c hc
  obtain ⟨c₀, hc₀, htype, hids₀⟩ := exists_checked hc
  obtain ⟨htrains, hschedules⟩ := Prod.mk.inj hids₀
  have hinvolved : involved c₀ = involved c := by rw [involved, involved, htrains, hschedules]
  have halone : ∀ trainId, Alone c₀ trainId → Alone c trainId := by
    intro trainId h
    rw [Alone, ← htrains, ← hschedules]
    exact h
  rcases Nat.lt_or_ge (involved c) 2 with hlt | hge
  · right
    rw [← hinvolved] at hlt
    rcases mem_append.mp hc₀ with hspacing | hrouting
    · left
      obtain ⟨hkind, req, hreq, htrain, hone, hself⟩ := spacing_alone hids hspacing hlt
      exact ⟨htype.symm.trans hkind, req, hreq, htrain, halone _ hone, hself⟩
    · right
      obtain ⟨hkind, trainId, hone, hself⟩ := routing_alone hrouting hlt
      exact ⟨htype.symm.trans hkind, trainId, halone _ hone, hself⟩
  · exact .inl hge

/-- A train that needs zone 7 on `[0, 10)` and again on `[5, 15)`. -/
def loopingTrain : AllRequirements :=
  ⟨⟨⟨"1", .TRAIN⟩, [⟨7, 0, (10 : ℚ), true⟩, ⟨7, 5, (15 : ℚ), true⟩]⟩, []⟩

/-- It is reported as conflicting with itself. -/
theorem detectAll_loopingTrain :
    (detectAll .inOrder [loopingTrain]).map (fun c => (c.trainIds, c.workScheduleIds)) = [(["1"], [])] := by
  decide +kernel

/-- Two trains that meet in zone 7. -/
def meetingTrains : List AllRequirements :=
  [⟨⟨⟨"1", .TRAIN⟩, [⟨7, 0, (10 : ℚ), true⟩]⟩, []⟩, ⟨⟨⟨"2", .TRAIN⟩, [⟨7, 5, (15 : ℚ), true⟩]⟩, []⟩]

theorem detectAll_involved_meetingTrains : (detectAll .inOrder meetingTrains).map involved = [2] ∧
      ∀ c ∈ detectAll .inOrder meetingTrains, 2 ≤ involved c ∨
        (c.conflictType = .SPACING ∧ ∃ req ∈ meetingTrains, req.id.type = .TRAIN ∧
          Alone c req.id.id ∧ OverlapsItself req) ∨
        (c.conflictType = .ROUTING ∧ ∃ trainId, Alone c trainId ∧
          RoutesConflict meetingTrains trainId) :=
  ⟨by decide +kernel, detectAll_involved .inOrder meetingTrains (by decide)⟩

end ConflictDetector

end Osrd.Conflicts
