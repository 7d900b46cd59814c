import Osrd.Projection.PathProjection

/-! The intersections that `get_intersections` reports: they are not empty, in order and within the ranges,
    and each of them is a stretch of ranges.

    A stretch starts where the shared part of its first range does, and each range after it adds the length
    of its own shared part. The loop goes on with a stretch as long as the tracks are neighbours on the
    path; it does not look whether the shared parts meet. -/

namespace Osrd.Projection

open List Option Nat

variable {intersections : List Intersection} {limit : ℕ}

namespace PathProjection

variable {s : PathProjection} {path : List TrackRange}

/-- Intersections that are not empty, one after the other, up to a position. -/
structure InOrder (intersections : List Intersection) (limit : ℕ) : Prop where
  nonempty : ∀ i ∈ intersections, i.startAt < i.endAt
  apart : intersections.Pairwise fun i j => i.endAt ≤ j.startAt
  within : ∀ i ∈ intersections, i.endAt ≤ limit

theorem InOrder.mono {limit limit' : ℕ}
    (h : InOrder intersections limit) (hle : limit ≤ limit') : InOrder intersections limit' :=
  ⟨h.nonempty, h.apart, fun i hi => (h.within i hi).trans hle⟩

theorem InOrder.concat {start current : ℕ} (h : InOrder intersections start) (hlt : start < current) :
    InOrder (intersections ++ [⟨start, current⟩]) current where
  nonempty i hi := by
    rcases mem_append.mp hi with hi | hi
    · exact h.nonempty i hi
    · exact mem_singleton.mp hi ▸ hlt
  apart := pairwise_append.mpr ⟨h.apart, pairwise_singleton _ _, fun i hi j hj =>
    mem_singleton.mp hj ▸ h.within i hi⟩
  within i hi := by
    rcases mem_append.mp hi with hi | hi
    · exact (h.within i hi).trans hlt.le
    · exact mem_singleton.mp hi ▸ le_rfl

/-- The intersections so far end before the one that is being built, which has grown up to `limit`. -/
inductive Building (limit : ℕ) : IntersectionBuilder → Prop
  | closed {current : ℕ} {intersections : List Intersection} :
      InOrder intersections limit → Building limit ⟨none, current, intersections⟩
  | opened {start current : ℕ} {intersections : List Intersection} :
      InOrder intersections start → start < current → current ≤ limit →
      Building limit ⟨some start, current, intersections⟩

variable {b : IntersectionBuilder}

theorem Building.finish (h : Building limit b) :
    ∃ b', b.finish = some b' ∧ b'.start = none ∧ InOrder b'.intersections limit := by
  cases h with
  | closed h => exact ⟨_, rfl, rfl, h⟩
  | @opened start current intersections h hlt hcurrent =>
    refine ⟨⟨none, current, intersections ++ [⟨start, current⟩]⟩, ?_, rfl, (h.concat hlt).mono hcurrent⟩
    simp only [IntersectionBuilder.finish]
    rw [if_neg (by omega)]

/-! ### What a range shares with the path -/

/-- Where the part of a range that is also in another one starts: at a distance from the start of the
    range. -/
def sharedStart (r proj : TrackRange) : ℕ :=
  if r.direction = .StartToStop then max r.beginAt proj.beginAt - r.beginAt
  else r.endAt - min r.endAt proj.endAt

/-- The length of the part of a range that is also in another one. -/
def sharedExtent (r proj : TrackRange) : ℕ :=
  min r.endAt proj.endAt - max r.beginAt proj.beginAt

theorem sharedStart_add_le {r proj : TrackRange} (h : 0 < sharedExtent r proj) :
    sharedStart r proj + sharedExtent r proj ≤ r.extent := by
  simp only [sharedStart, sharedExtent, TrackRange.extent] at h ⊢
  split <;> omega

/-- A range and the range `proj` of the path, at index `i`, are on one track and have a part in common. -/
structure Shares (path : List TrackRange) (r : TrackRange) (i : ℕ) (proj : TrackRange) : Prop where
  at_index : path[i]? = some proj
  same_track : proj.trackSection = r.trackSection
  overlap : 0 < sharedExtent r proj

theorem Indexes.index_of_shares (h : s.Indexes path) {r proj : TrackRange} {i : ℕ}
    (hshares : Shares path r i proj) : s.trackIndex r.trackSection = some i :=
  (h.index_iff _ _).mpr ⟨proj, hshares.at_index, hshares.same_track⟩

theorem Indexes.shares_unique (h : s.Indexes path) {r proj proj' : TrackRange} {i i' : ℕ}
    (hshares : Shares path r i proj) (hshares' : Shares path r i' proj') : i = i' ∧ proj = proj' := by
  have hindex := (h.index_of_shares hshares).symm.trans (h.index_of_shares hshares')
  cases hindex
  exact ⟨rfl, Option.some.inj (hshares.at_index.symm.trans hshares'.at_index)⟩

/-! ### A turn of the loop -/

theorem finish_finish {b b' : IntersectionBuilder} (h : b.finish = some b') : b'.finish = some b' := by
  obtain ⟨_ | start, current, found⟩ := b
  · cases h
    rfl
  · simp only [IntersectionBuilder.finish, ite_none_left_eq_some] at h
    obtain ⟨-, h⟩ := h
    cases h
    rfl

theorem finishUnlessNext_finish (b : IntersectionBuilder) (dist : ℕ) :
    (finishUnlessNext b dist).bind (·.finish) = b.finish := by
  rw [finishUnlessNext]
  split
  · cases hfinish : b.finish with
    | none => rfl
    | some b' => exact finish_finish hfinish
  · rfl

/-- Extends the intersection that is being built, or starts one at a position. -/
def extend (b : IntersectionBuilder) (pos extent : ℕ) : IntersectionBuilder :=
  match b.start with
  | none => ⟨some pos, pos + extent, b.intersections⟩
  | some start => ⟨some start, b.current + extent, b.intersections⟩

theorem startIfNone_grow (r proj : TrackRange) (b : IntersectionBuilder) (currentPos : ℕ) :
    (startIfNone b r currentPos (max r.beginAt proj.beginAt) (min r.endAt proj.endAt)).map
      (·.growIntersection (sharedExtent r proj)) =
        some (extend b (currentPos + sharedStart r proj) (sharedExtent r proj)) := by
  obtain ⟨_ | start, current, found⟩ := b
  · simp only [startIfNone, isSome_none, Bool.false_eq_true, if_false]
    split
    · next hdirection =>
      rw [Partial.checkedSub_of_le (by omega), sharedStart, if_pos hdirection,
        ← Nat.add_sub_assoc (by omega)]
      rfl
    · next hdirection =>
      rw [Partial.checkedSub_of_le (by omega), sharedStart, if_neg hdirection,
        ← Nat.add_sub_assoc (by omega)]
      rfl
  · rfl

variable {scan : Scan} {r : TrackRange}

/-- A range that shares nothing with the path ends the intersection. -/
theorem Indexes.scanRange_apart (h : s.Indexes path) (hpath : s.path = path)
    (hr : r.beginAt ≤ r.endAt) (hapart : ∀ i proj, ¬ Shares path r i proj) : ∃ i, s.scanRange scan r =
      scan.builder.finish.map fun b => ⟨scan.nextPos + r.extent, i, b⟩ := by
  simp only [scanRange, TrackRange.length_eq hr]
  cases hproj : s.getTrackRange r.trackSection with
  | none => exact ⟨scan.pathTrackIndex, by cases scan.builder.finish <;> rfl⟩
  | some proj =>
    obtain ⟨i, hi, hat⟩ := bind_eq_some_iff.mp hproj
    rw [hpath] at hat
    obtain ⟨proj', hat', htrack⟩ := (h.index_iff _ _).mp hi
    obtain rfl : proj' = proj := Option.some.inj (hat'.symm.trans hat)
    have hempty : min r.endAt proj'.endAt ≤ max r.beginAt proj'.beginAt := by
      by_contra hlt
      exact hapart i proj' ⟨hat, htrack, Nat.sub_pos_of_lt (not_le.mp hlt)⟩
    refine ⟨i, ?_⟩
    simp only [htrack, hi, bind_some, scanShared, if_pos hempty, bind_eq_bind, Option.pure_def]
    rw [← finishUnlessNext_finish scan.builder (indexDistance i scan.pathTrackIndex)]
    cases finishUnlessNext scan.builder (indexDistance i scan.pathTrackIndex) with
    | none => rfl
    | some b => cases hfinish : b.finish <;> simp [hfinish]

/-- A range that shares a part with the path starts an intersection or goes on with it. -/
theorem Indexes.scanRange_shares (h : s.Indexes path) (hpath : s.path = path)
    (hr : r.beginAt ≤ r.endAt) {i : ℕ} {proj : TrackRange} (hshares : Shares path r i proj) :
    s.scanRange scan r = (finishUnlessNext scan.builder (indexDistance i scan.pathTrackIndex)).map fun b =>
        ⟨scan.nextPos + r.extent, i,
          extend b (scan.nextPos + sharedStart r proj) (sharedExtent r proj)⟩ := by
  have hi := h.index_of_shares hshares
  have hlt : ¬ min r.endAt proj.endAt ≤ max r.beginAt proj.beginAt :=
    not_le.mpr (Nat.lt_of_sub_pos hshares.overlap)
  simp only [scanRange, TrackRange.length_eq hr, getTrackRange, hi, hpath, hshares.at_index,
    hshares.same_track, scanShared, if_neg hlt, bind_eq_bind, bind_some, Option.pure_def]
  cases finishUnlessNext scan.builder (indexDistance i scan.pathTrackIndex) with
  | none => rfl
  | some b =>
    obtain ⟨b', hb', hextend⟩ := map_eq_some_iff.mp (startIfNone_grow r proj b scan.nextPos)
    simp only [bind_some, map_some, hb', ← hextend]
    rfl

/-! ### The loop does not panic -/

theorem Building.closed_of_finish {limit limit' : ℕ} (h : Building limit b) (hle : limit ≤ limit') :
    ∃ b', b.finish = some b' ∧ Building limit' b' := by
  obtain ⟨⟨_, _, _⟩, hb', rfl, horder⟩ := h.finish
  exact ⟨_, hb', .closed (horder.mono hle)⟩

theorem Building.finishUnlessNext (h : Building limit b) (dist : ℕ) :
    ∃ b', finishUnlessNext b dist = some b' ∧ Building limit b' := by
  rw [PathProjection.finishUnlessNext]
  split
  · exact h.closed_of_finish le_rfl
  · exact ⟨b, rfl, h⟩

theorem Building.extend (h : Building limit b) {pos extent limit' : ℕ} (hpos : limit ≤ pos)
    (hextent : 0 < extent) (hle : pos + extent ≤ limit') : Building limit' (extend b pos extent) := by
  cases h with
  | closed h => exact .opened (h.mono hpos) (Nat.lt_add_of_pos_right hextent) hle
  | opened h hlt hcurrent =>
    refine .opened h (hlt.trans_le (le_add_right _ _)) (le_trans ?_ hle)
    exact Nat.add_le_add_right (hcurrent.trans hpos) extent

theorem Indexes.scanRange_building (h : s.Indexes path) (hpath : s.path = path)
    (hr : r.beginAt ≤ r.endAt) (hbuilding : Building scan.nextPos scan.builder) :
    ∃ scan', s.scanRange scan r = some scan' ∧ scan'.nextPos = scan.nextPos + r.extent ∧
      Building scan'.nextPos scan'.builder := by
  by_cases hshares : ∃ i proj, Shares path r i proj
  · obtain ⟨i, proj, hshares⟩ := hshares
    obtain ⟨b, hb, hbuilding'⟩ := hbuilding.finishUnlessNext (indexDistance i scan.pathTrackIndex)
    have hle := sharedStart_add_le hshares.overlap
    refine ⟨_, by rw [h.scanRange_shares hpath hr hshares, hb]; rfl, rfl, ?_⟩
    exact hbuilding'.extend (le_add_right _ _) hshares.overlap (by simp only; omega)
  · have hapart : ∀ i proj, ¬ Shares path r i proj := fun i proj hi => hshares ⟨i, proj, hi⟩
    obtain ⟨i, hturn⟩ := h.scanRange_apart hpath hr hapart
    obtain ⟨b, hb, hbuilding'⟩ := hbuilding.closed_of_finish (le_add_right scan.nextPos r.extent)
    exact ⟨_, by rw [hturn, hb]; rfl, rfl, hbuilding'⟩

/-! ### Stretches -/

variable {train : List TrackRange}

/-- The ranges at `k` and `k + 1` share parts of neighbouring tracks of the path. -/
def Joined (path train : List TrackRange) (k : ℕ) : Prop :=
  ∃ r i proj r' i' proj', train[k]? = some r ∧ Shares path r i proj ∧
    train[k + 1]? = some r' ∧ Shares path r' i' proj' ∧ indexDistance i' i = 1

/-- What the loop takes for one intersection, up to the range at `k`: from the start of the shared part of a
    range that is not joined to the one before, the lengths of the shared parts of the joined ranges. -/
inductive Stretch (path train : List TrackRange) : (k start stop : ℕ) → Prop
  | first {k i : ℕ} {r proj : TrackRange} : train[k]? = some r → Shares path r i proj →
      (∀ j, k = j + 1 → ¬ Joined path train j) →
      Stretch path train k (startOf train k + sharedStart r proj)
        (startOf train k + sharedStart r proj + sharedExtent r proj)
  | next {k i start stop : ℕ} {r proj : TrackRange} : Stretch path train k start stop →
      Joined path train k → train[k + 1]? = some r → Shares path r i proj →
      Stretch path train (k + 1) start (stop + sharedExtent r proj)

theorem Stretch.shares {k start stop : ℕ} (h : Stretch path train k start stop) :
    ∃ r i proj, train[k]? = some r ∧ Shares path r i proj := by
  cases h with
  | first hr hshares _ => exact ⟨_, _, _, hr, hshares⟩
  | next _ _ hr hshares => exact ⟨_, _, _, hr, hshares⟩

theorem Indexes.stretch_unique (hs : s.Indexes path) {k start stop : ℕ}
    (h : Stretch path train k start stop) :
    ∀ {start' stop'}, Stretch path train k start' stop' → start = start' ∧ stop = stop' := by
  induction h with
  | first hr hshares hfirst =>
    intro start' stop' h'
    cases h' with
    | first hr' hshares' _ =>
      cases hr.symm.trans hr'
      obtain ⟨-, rfl⟩ := hs.shares_unique hshares hshares'
      exact ⟨rfl, rfl⟩
    | next _ hjoined _ _ => exact absurd hjoined (hfirst _ rfl)
  | next _ hjoined hr hshares ih =>
    intro start' stop' h'
    cases h' with
    | first _ _ hfirst => exact absurd hjoined (hfirst _ rfl)
    | next hstretch' _ hr' hshares' =>
      obtain ⟨rfl, rfl⟩ := ih hstretch'
      cases hr.symm.trans hr'
      obtain ⟨-, rfl⟩ := hs.shares_unique hshares hshares'
      exact ⟨rfl, rfl⟩

/-- After `k` ranges the builder holds the stretches up to them. -/
structure Covers (path train : List TrackRange) (k : ℕ) (b : IntersectionBuilder) : Prop where
  reported : ∀ x ∈ b.intersections, ∃ j, Stretch path train j x.startAt x.endAt
  opened : ∀ start, b.start = some start → ∃ j, k = j + 1 ∧ Stretch path train j start b.current
  complete : ∀ j start stop, j < k → Stretch path train j start stop →
    (∃ x ∈ b.intersections, x.startAt = start ∧ stop ≤ x.endAt) ∨
      b.start = some start ∧ stop ≤ b.current

theorem Covers.finish {k : ℕ} {b b' : IntersectionBuilder} (h : Covers path train k b)
    (hfinish : b.finish = some b') : b'.start = none ∧ Covers path train k b' := by
  obtain ⟨_ | start, current, found⟩ := b
  · cases hfinish
    exact ⟨rfl, h⟩
  · simp only [IntersectionBuilder.finish, ite_none_left_eq_some] at hfinish
    obtain ⟨-, hfinish⟩ := hfinish
    cases hfinish
    refine ⟨rfl, ⟨?_, fun _ hstart => (nomatch hstart), ?_⟩⟩
    · intro x hx
      rcases mem_append.mp hx with hx | hx
      · exact h.reported x hx
      · obtain ⟨j, -, hstretch⟩ := h.opened start rfl
        exact ⟨j, mem_singleton.mp hx ▸ hstretch⟩
    · intro j start' stop hj hstretch
      left
      rcases h.complete j start' stop hj hstretch with ⟨x, hx, hcovers⟩ | ⟨hstart, hstop⟩
      · exact ⟨x, mem_append_left _ hx, hcovers⟩
      · exact ⟨⟨start, current⟩, mem_append_right _ (mem_singleton_self _), Option.some.inj hstart, hstop⟩

/-- A range that is in no stretch. -/
theorem Covers.skip {k : ℕ} (h : Covers path train k b) (hclosed : b.start = none)
    (hnone : ∀ start stop, ¬ Stretch path train k start stop) : Covers path train (k + 1) b where
  reported := h.reported
  opened start hstart := nomatch hclosed.symm.trans hstart
  complete j start stop hj hstretch := by
    rcases Nat.lt_succ_iff_lt_or_eq.mp hj with hj | rfl
    · exact h.complete j start stop hj hstretch
    · exact absurd hstretch (hnone start stop)

/-- A range that starts a stretch or goes on with it. -/
theorem Covers.grow (hs : s.Indexes path) {k start current : ℕ} (h : Covers path train k b)
    (hopened : ∀ start', b.start = some start' → start' = start ∧ b.current ≤ current)
    (hstretch : Stretch path train k start current) :
    Covers path train (k + 1) ⟨some start, current, b.intersections⟩ where
  reported := h.reported
  opened start' hstart := ⟨k, rfl, Option.some.inj hstart ▸ hstretch⟩
  complete j start' stop hj hstretch' := by
    rcases Nat.lt_succ_iff_lt_or_eq.mp hj with hj | rfl
    · rcases h.complete j start' stop hj hstretch' with hreported | ⟨hstart, hstop⟩
      · exact .inl hreported
      · obtain ⟨rfl, hle⟩ := hopened start' hstart
        exact .inr ⟨rfl, hstop.trans hle⟩
    · obtain ⟨rfl, rfl⟩ := hs.stretch_unique hstretch hstretch'
      exact .inr ⟨rfl, le_rfl⟩

/-- The state of the loop after `k` ranges. -/
structure Reports (path train : List TrackRange) (k : ℕ) (scan : Scan) : Prop where
  position : scan.nextPos = startOf train k
  covers : Covers path train k scan.builder
  /-- When the last range shares a part, there is an intersection to go on with. -/
  shared : ∀ j r i proj, k = j + 1 → train[j]? = some r → Shares path r i proj →
    scan.builder.start.isSome ∧ scan.pathTrackIndex = i

/-- The stretch that a range is in, when the loop has come to it. -/
theorem Reports.stretch (hs : s.Indexes path) {k i : ℕ} {proj : TrackRange} (h : Reports path train k scan)
    (hr : train[k]? = some r) (hshares : Shares path r i proj)
    (hb : finishUnlessNext scan.builder (indexDistance i scan.pathTrackIndex) = some b) :
    Covers path train (k + 1) (extend b (scan.nextPos + sharedStart r proj) (sharedExtent r proj)) := by
  rw [finishUnlessNext] at hb
  split at hb
  · next hdist =>
    -- the ranges are not joined
    obtain ⟨hclosed, hcovers⟩ := h.covers.finish hb
    have hfirst : ∀ j, k = j + 1 → ¬ Joined path train j := by
      rintro j rfl ⟨r₁, i₁, proj₁, r₂, i₂, proj₂, hr₁, hshares₁, hr₂, hshares₂, hnext⟩
      cases hr.symm.trans hr₂
      obtain ⟨rfl, -⟩ := hs.shares_unique hshares hshares₂
      exact hdist ((h.shared j r₁ i₁ proj₁ rfl hr₁ hshares₁).2 ▸ hnext)
    rw [extend, hclosed, h.position]
    refine hcovers.grow hs (fun start hstart => ?_) (.first hr hshares hfirst)
    exact nomatch hclosed.symm.trans hstart
  · next hdist =>
    cases hb
    cases hstart : scan.builder.start with
    | none =>
      have hfirst : ∀ j, k = j + 1 → ¬ Joined path train j := by
        rintro j rfl ⟨r₁, i₁, proj₁, -, -, -, hr₁, hshares₁, -⟩
        have hopen := (h.shared j r₁ i₁ proj₁ rfl hr₁ hshares₁).1
        rw [hstart] at hopen
        exact nomatch hopen
      rw [extend, hstart, h.position]
      refine h.covers.grow hs (fun start hstart' => ?_) (.first hr hshares hfirst)
      exact nomatch hstart.symm.trans hstart'
    | some start =>
      obtain ⟨j, rfl, hstretch⟩ := h.covers.opened start hstart
      obtain ⟨r₁, i₁, proj₁, hr₁, hshares₁⟩ := hstretch.shares
      have hindex := (h.shared j r₁ i₁ proj₁ rfl hr₁ hshares₁).2
      have hjoined : Joined path train j :=
        ⟨r₁, i₁, proj₁, r, i, proj, hr₁, hshares₁, hr, hshares, hindex ▸ not_not.mp hdist⟩
      rw [extend, hstart]
      refine h.covers.grow hs (fun start' hstart' => ?_) (hstretch.next hjoined hr hshares)
      exact ⟨Option.some.inj (hstart'.symm.trans hstart), le_add_right _ _⟩

theorem extend_start (b : IntersectionBuilder) (pos extent : ℕ) :
    (extend b pos extent).start.isSome := by
  rw [extend]
  split <;> rfl

theorem Reports.scanRange (hs : s.Indexes path) (hpath : s.path = path) {k : ℕ} {scan' : Scan}
    (h : Reports path train k scan) (hr : train[k]? = some r) (hordered : r.beginAt ≤ r.endAt)
    (hturn : s.scanRange scan r = some scan') : Reports path train (k + 1) scan' := by
  have hnext := startOf_succ hr
  by_cases hshares : ∃ i proj, Shares path r i proj
  · obtain ⟨i, proj, hshares⟩ := hshares
    rw [hs.scanRange_shares hpath hordered hshares] at hturn
    obtain ⟨b, hb, rfl⟩ := map_eq_some_iff.mp hturn
    refine ⟨by rw [hnext, h.position], h.stretch hs hr hshares hb, ?_⟩
    rintro j r' i' proj' hj hr' hshares'
    obtain rfl := succ.inj hj
    cases hr.symm.trans hr'
    exact ⟨extend_start _ _ _, (hs.shares_unique hshares hshares').1⟩
  · have hapart : ∀ i proj, ¬ Shares path r i proj := fun i proj hi => hshares ⟨i, proj, hi⟩
    obtain ⟨i, hscan⟩ := hs.scanRange_apart hpath hordered hapart
    rw [hscan] at hturn
    obtain ⟨b, hb, rfl⟩ := map_eq_some_iff.mp hturn
    obtain ⟨hclosed, hcovers⟩ := h.covers.finish hb
    refine ⟨by rw [hnext, h.position], hcovers.skip hclosed ?_, ?_⟩
    · intro start stop hstretch
      obtain ⟨r', i', proj', hr', hshares'⟩ := hstretch.shares
      cases hr.symm.trans hr'
      exact hapart i' proj' hshares'
    · rintro j r' i' proj' hj hr' hshares'
      obtain rfl := succ.inj hj
      cases hr.symm.trans hr'
      exact absurd hshares' (hapart i' proj')

/-- The whole loop, over the first `k` ranges. -/
theorem Indexes.foldlM_scanRange (hs : s.Indexes path) (hpath : s.path = path)
    (hordered : ∀ r ∈ train, r.beginAt ≤ r.endAt) : ∀ {k : ℕ}, k ≤ train.length →
    ∃ scan, (train.take k).foldlM s.scanRange ⟨0, 0, .new⟩ = some scan ∧
      Building scan.nextPos scan.builder ∧ Reports path train k scan
  | 0, _ => by
    refine ⟨⟨0, 0, .new⟩, rfl, ?_, ⟨rfl, ⟨?_, ?_, ?_⟩, ?_⟩⟩
    · exact .closed ⟨fun _ hx => (nomatch hx), .nil, fun _ hx => (nomatch hx)⟩
    · exact fun _ hx => nomatch hx
    · exact fun _ hstart => nomatch hstart
    · exact fun j _ _ hj => absurd hj (not_lt_zero j)
    · exact fun j _ _ _ hj => nomatch hj
  | k + 1, hk => by
    obtain ⟨scan, hscan, hbuilding, hreports⟩ := hs.foldlM_scanRange hpath hordered (le_of_lt hk)
    have hr : train[k]? = some train[k] := getElem?_eq_getElem hk
    have hle := hordered _ (getElem_mem hk)
    obtain ⟨scan', hturn, -, hbuilding'⟩ := hs.scanRange_building hpath hle hbuilding
    refine ⟨scan', ?_, hbuilding', hreports.scanRange hs hpath hr hle hturn⟩
    rw [take_add_one, hr, foldlM_append, hscan]
    simp only [toList_some, foldlM_cons, foldlM_nil, bind_eq_bind, bind_some, hturn, Option.pure_def]

/-- `get_intersections` answers with the stretches: those it reports are stretches, and every stretch is
    part of one that it reports. -/
theorem Indexes.getIntersections_spec (hs : s.Indexes path) (hpath : s.path = path)
    (hordered : ∀ r ∈ train, r.beginAt ≤ r.endAt) : ∃ found, s.getIntersections train = some found ∧
      InOrder found (startOf train train.length) ∧
      (∀ x ∈ found, ∃ k, Stretch path train k x.startAt x.endAt) ∧
      ∀ k start stop, Stretch path train k start stop →
        ∃ x ∈ found, x.startAt = start ∧ stop ≤ x.endAt := by
  obtain ⟨scan, hscan, hbuilding, hreports⟩ := hs.foldlM_scanRange hpath hordered le_rfl
  obtain ⟨b, hb, -, horder⟩ := hbuilding.finish
  obtain ⟨hclosed, hcovers⟩ := hreports.covers.finish hb
  rw [take_length] at hscan
  rw [hreports.position] at horder
  refine ⟨b.intersections, ?_, horder, hcovers.reported, ?_⟩
  · simp only [getIntersections, hscan, bind_eq_bind, bind_some, hb, Option.pure_def]
  · intro k start stop hstretch
    obtain ⟨r, -, -, hr, -⟩ := hstretch.shares
    have hk := (List.getElem?_eq_some_iff.mp hr).1
    rcases hcovers.complete k start stop hk hstretch with hreported | ⟨hstart, -⟩
    · exact hreported
    · exact nomatch hclosed.symm.trans hstart

/-- On a valid path the intersections are not empty, in order and within the ranges. -/
theorem getIntersections_inOrder (hpath : ValidPath path) (hordered : ∀ r ∈ train, r.beginAt < r.endAt) :
    ∃ s found, new path = some s ∧ s.getIntersections train = some found ∧
      InOrder found (startOf train train.length) := by
  obtain ⟨s, hnew, hspath, hs⟩ := new_spec hpath
  obtain ⟨found, hanswer, horder, -⟩ := hs.getIntersections_spec hspath fun r hr => (hordered r hr).le
  exact ⟨s, found, hnew, hanswer, horder⟩

/-- A train that runs against the direction of the path and past its end. -/
theorem getIntersections_inOrder_backwards : ∃ s found, new [⟨"a", 0, 100, .StartToStop⟩] = some s ∧
    s.getIntersections [⟨"a", 20, 80, .StopToStart⟩, ⟨"b", 0, 50, .StartToStop⟩] = some found ∧
    InOrder found 110 :=
  getIntersections_inOrder ⟨by simp, by simp⟩ (by simp)

end PathProjection

end Osrd.Projection
