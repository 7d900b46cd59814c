import Osrd.InfraErrors.Objects
import Osrd.Lib.FiniteWalk

/-! Model of `compute_track_ranges_on_route` (`editoast/src/infra_cache/mod.rs`) with the switches of the
    graph (`infra_cache/graph.rs`): the tracks of a route, followed from its entry point to the track of its
    exit point.

    The loop keeps no record of the tracks it has been on. It ends unless the links it follows from the entry
    point lead to a cycle that does not meet the track of the exit point; then it goes on for ever. -/

namespace Osrd.InfraErrors

open Option

open Infra (Direction)
open Relation (ReflTransGen TransGen)

deriving instance DecidableEq for Waypoint

/-- A route with the direction in which it leaves its entry point. -/
structure DirectedRoute extends Route where
  entryPointDirection : Direction

variable {K : Type}

/-! ### The switches of the graph -/

namespace Graph

abbrev Switches := TrackEndpoint → Option SwitchCache

/-- `load`, on the table of switches. -/
def switchesOfConnection (switch : SwitchCache) (switches : Switches) (connection : SwitchPortConnection) :
    Switches :=
  match switch.ports.lookup connection.src, switch.ports.lookup connection.dst with
  | some src, some dst => Function.update (Function.update switches src (some switch)) dst (some switch)
  | _, _ => switches

def switchesOf (cache : InfraCache K) (switches : Switches) (switch : SwitchCache) : Switches :=
  match cache.switchType switch.switchType with
  | none => switches
  | some switchType =>
      switchType.groups.foldl
        (fun switches group => group.2.foldl (switchesOfConnection switch) switches) switches

def loadSwitches (cache : InfraCache K) : Switches := cache.switches.foldl (switchesOf cache) fun _ => none

def getNeighbour (graph : Graph) (endpoint : TrackEndpoint) (group : String) : Option TrackEndpoint :=
  (graph.links endpoint).lookup group

end Graph

def TrackEndpoint.fromTrackAndDirection (track : String) : Direction → TrackEndpoint
  | .StartToStop => ⟨.End, track⟩
  | .StopToStart => ⟨.Begin, track⟩

/-! ### The walk -/

section Walk

variable [LinearOrder K] [Zero K]

def InfraCache.getWaypointLocation (cache : InfraCache K) : Waypoint → Option (String × K)
  | .Detector id => (cache.detector id).map fun detector => (detector.track, detector.position)
  | .BufferStop id => (cache.bufferStop id).map fun bufferStop => (bufferStop.track, bufferStop.position)

/-- What the loop carries. -/
structure Walk (K : Type) where
  curTrack : TrackSectionCache K
  curDir : Direction
  curOffset : K
  trackRanges : List (Osrd.Infra.DirectionalTrackRange K)
  usedSwitches : List SwitchDirection

/-- The track section after one that is left in a direction, with the switch between them. -/
def nextTrack (cache : InfraCache K) (graph : Graph) (switches : Graph.Switches) (route : DirectedRoute)
    (curTrackId : String) (curDir : Direction) :
    Option (SwitchDirection × TrackSectionCache K × Endpoint) := do
  let endpoint := TrackEndpoint.fromTrackAndDirection curTrackId curDir
  if graph.hasNeighbour endpoint then
    let switch ← switches endpoint
    let switchType ← cache.switchType switch.switchType
    let group ← (if switchType.groups.length = 1 then switchType.groups.head?.map (·.1)
      else route.switchesDirections.lookup switch.objId)
    let nextEndpoint ← graph.getNeighbour endpoint group
    let curTrack ← cache.trackSection nextEndpoint.track
    return (⟨switch.objId, group⟩, curTrack, nextEndpoint.endpoint)
  else none

/-- The direction in which a track section is entered. -/
def Endpoint.directionFrom : Endpoint → Direction
  | .Begin => .StartToStop
  | .End => .StopToStart

/-- The range on the current track. -/
def Walk.range (exitTrack : String) (exitOffset : K) (walk : Walk K) : Osrd.Infra.DirectionalTrackRange K :=
  let endOffset := if walk.curTrack.objId = exitTrack then exitOffset
    else if walk.curDir = .StartToStop then walk.curTrack.length else 0
  ⟨walk.curTrack.objId, min walk.curOffset endOffset, max walk.curOffset endOffset, walk.curDir⟩

/-- A turn of the loop: the answer, or where it goes on. -/
def walkStep (cache : InfraCache K) (graph : Graph) (switches : Graph.Switches) (route : DirectedRoute)
    (exitTrack : String) (exitOffset : K) (walk : Walk K) : Option (RoutePath K) ⊕ Walk K :=
  let trackRanges := walk.trackRanges ++ [walk.range exitTrack exitOffset]
  if walk.curTrack.objId = exitTrack then
    if (walk.curDir = .StartToStop ∧ exitOffset < walk.curOffset) ∨
        (walk.curDir = .StopToStart ∧ walk.curOffset < exitOffset) then .inl none
    else .inl (some ⟨trackRanges, walk.usedSwitches⟩)
  else
    match nextTrack cache graph switches route walk.curTrack.objId walk.curDir with
    | none => .inl none
    | some (used, curTrack, endpoint) => .inr
        ⟨curTrack, endpoint.directionFrom, if endpoint = .Begin then 0 else curTrack.length, trackRanges,
          walk.usedSwitches ++ [used]⟩

/-- Where the loop starts and where it is to end, if the waypoints and the first track section are there. -/
def startWalk (cache : InfraCache K) (route : DirectedRoute) : Option (Walk K × String × K) := do
  if route.entryPoint = route.exitPoint then none
  else
    let (curTrack, curOffset) ← cache.getWaypointLocation route.entryPoint
    let (exitTrack, exitOffset) ← cache.getWaypointLocation route.exitPoint
    let curTrack ← cache.trackSection curTrack
    return (⟨curTrack, route.entryPointDirection, curOffset, [], []⟩, exitTrack, exitOffset)

/-- `compute_track_ranges_on_route`, for a number of turns of its loop; `none` if it goes on after them. -/
def computeTrackRangesOnRoute (fuel : ℕ) (cache : InfraCache K) (route : DirectedRoute) (graph : Graph)
    (switches : Graph.Switches) : Option (Option (RoutePath K)) :=
  match startWalk cache route with
  | none => some none
  | some (walk, exitTrack, exitOffset) =>
      FiniteWalk.run (walkStep cache graph switches route exitTrack exitOffset) fuel walk

/-! ### When it ends -/

/-- A track section that is not that of the exit point, left in a direction, leads to another one. -/
def Leads (cache : InfraCache K) (graph : Graph) (switches : Graph.Switches) (route : DirectedRoute)
    (exitTrack : String) (a b : String × Direction) : Prop :=
  a.1 ≠ exitTrack ∧ ∃ used track endpoint,
    nextTrack cache graph switches route a.1 a.2 = some (used, track, endpoint) ∧
      b = (track.objId, endpoint.directionFrom)

def Walk.place (walk : Walk K) : String × Direction := (walk.curTrack.objId, walk.curDir)

variable {cache : InfraCache K} {graph : Graph} {switches : Graph.Switches} {route : DirectedRoute}
  {exitTrack : String}

theorem walkStep_follows (exitOffset : K) :
    FiniteWalk.Follows (walkStep cache graph switches route exitTrack exitOffset) Walk.place
      (Leads cache graph switches route exitTrack) where
  next walk walk' hstep c := by
    simp only [walkStep] at hstep
    split at hstep
    · split at hstep <;> exact nomatch hstep
    · next hexit =>
      split at hstep
      · exact nomatch hstep
      · next used track endpoint hnext =>
        cases hstep
        constructor
        · rintro ⟨-, used', track', endpoint', hnext', rfl⟩
          cases hnext.symm.trans hnext'
          rfl
        · rintro rfl
          exact ⟨hexit, used, track, endpoint, hnext, rfl⟩
  stop walk answer hstep c := by
    rintro ⟨hexit, used, track, endpoint, hnext, -⟩
    have hexit : ¬ walk.curTrack.objId = exitTrack := hexit
    have hnext : nextTrack cache graph switches route walk.curTrack.objId walk.curDir = _ := hnext
    rw [walkStep, if_neg hexit, hnext] at hstep
    exact nomatch hstep

/-- The places on track sections of the cache. -/
def placesOf (cache : InfraCache K) : Finset (String × Direction) :=
  (cache.trackSections.map (·.objId)).toFinset ×ˢ {.StartToStop, .StopToStart}

omit [LinearOrder K] [Zero K] in
theorem mem_placesOf {id : String} {track : TrackSectionCache K} (h : cache.trackSection id = some track)
    (direction : Direction) : (track.objId, direction) ∈ placesOf cache := by
  refine Finset.mem_product.mpr ⟨?_, ?_⟩
  · exact List.mem_toFinset.mpr (List.mem_map_of_mem (List.mem_of_find?_eq_some h))
  · cases direction <;> simp

omit [LinearOrder K] [Zero K] in
theorem Leads.mem_placesOf {a b : String × Direction} (h : Leads cache graph switches route exitTrack a b) :
    b ∈ placesOf cache := by
  obtain ⟨-, used, track, endpoint, hnext, rfl⟩ := h
  simp only [nextTrack, bind_eq_bind, pure_def, ite_none_right_eq_some, bind_eq_some_iff] at hnext
  obtain ⟨_, _, _, _, _, _, _, _, _, found, hfound, hsame⟩ := hnext
  cases hsame
  exact InfraErrors.mem_placesOf hfound _

/-- The links that are followed from the entry point of a route lead to a cycle before they meet the track of
    the exit point. -/
def LeadsToCycle (cache : InfraCache K) (route : DirectedRoute) : Prop :=
  ∃ walk exitTrack exitOffset, startWalk cache route = some (walk, exitTrack, exitOffset) ∧
    ∃ c, ReflTransGen (Leads cache (.load cache) (Graph.loadSwitches cache) route exitTrack) walk.place c ∧
      TransGen (Leads cache (.load cache) (Graph.loadSwitches cache) route exitTrack) c c

/-- The loop ends on the routes that do not lead to a cycle, and on no other. -/
theorem computeTrackRangesOnRoute_ends_iff (cache : InfraCache K) (route : DirectedRoute) :
    (∃ fuel, (computeTrackRangesOnRoute fuel cache route (.load cache) (Graph.loadSwitches cache)).isSome) ↔
      ¬ LeadsToCycle cache route := by
  simp only [computeTrackRangesOnRoute, LeadsToCycle]
  cases hstart : startWalk cache route with
  | none => simp
  | some start =>
    obtain ⟨walk, exitTrack, exitOffset⟩ := start
    have hplace : walk.place ∈ placesOf cache := by
      simp only [startWalk, bind_eq_bind, pure_def, ite_none_left_eq_some, bind_eq_some_iff] at hstart
      obtain ⟨_, _, _, _, _, track, htrack, hsame⟩ := hstart
      cases hsame
      exact mem_placesOf htrack _
    have hplaces : ∀ c, ReflTransGen (Leads cache (.load cache) (Graph.loadSwitches cache) route exitTrack)
        walk.place c → c ∈ placesOf cache := by
      intro c hc
      rcases ReflTransGen.cases_tail hc with rfl | ⟨_, -, hlast⟩
      · exact hplace
      · exact hlast.mem_placesOf
    rw [(walkStep_follows exitOffset).run_isSome_iff hplaces]
    constructor
    · rintro hacyclic ⟨_, _, _, heq, c, hreach, hcycle⟩
      cases heq
      exact hacyclic c hreach hcycle
    · exact fun hno c hreach hcycle => hno ⟨walk, exitTrack, exitOffset, rfl, c, hreach, hcycle⟩

end Walk

/-- A track section whose end is linked to its own beginning, and another one. -/
def ring : InfraCache ℕ where
  trackSections := [⟨"a", 100⟩, ⟨"b", 100⟩]
  bufferStops := []
  detectors := [⟨"entry", "a", 10⟩, ⟨"exit", "b", 10⟩]
  switches := [⟨"link", "link_type", [("A", ⟨.End, "a"⟩), ("B", ⟨.Begin, "a"⟩)]⟩]
  switchTypes := [⟨"link_type", ["A", "B"], [("static", [⟨"A", "B"⟩])]⟩]
  routes := []
  speedSections := []
  electrifications := []
  trackSectionsRefs := fun _ => []

/-- From the ring to the other track section. -/
def ringRoute : DirectedRoute := ⟨⟨"route", .Detector "entry", .Detector "exit", [], []⟩, .StartToStop⟩

/-- The route goes round the ring for ever. -/
theorem computeTrackRangesOnRoute_ring : ¬ ∃ fuel,
    (computeTrackRangesOnRoute fuel ring ringRoute (.load ring) (Graph.loadSwitches ring)).isSome := by
  rintro ⟨fuel, hends⟩
  have hleads : Leads ring (.load ring) (Graph.loadSwitches ring) ringRoute "b" ("a", .StartToStop)
      ("a", .StartToStop) := ⟨by decide, _, _, _, rfl, rfl⟩
  have hnone : computeTrackRangesOnRoute fuel ring ringRoute (.load ring) (Graph.loadSwitches ring) = none :=
    (walkStep_follows 10).run_eq_none fuel (s := ⟨⟨"a", 100⟩, .StartToStop, 10, [], []⟩) .refl
    (.single hleads)
  rw [hnone] at hends
  exact nomatch hends

end Osrd.InfraErrors
