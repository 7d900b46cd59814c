import Mathlib
import Osrd.Projection.Intersections

/-! The positions of a train that `get_intersections` covers, against those whose location lies on the path.

    Along each range the positions on the path are those of its shared part. An intersection that goes on
    from one range to the next covers what lies between their shared parts as well, since the loop only looks
    at the indices of the tracks. So the intersections cover the right positions exactly when the shared
    parts of joined ranges touch; a range that meets the path in one point only gives an isolated
    position. -/

namespace Osrd.Projection

open PathProjection Nat List

variable {k a b : ℕ}
variable {path train : List TrackRange}

/-! ### Positions -/

/-- The point of the track at a distance from the start of a range. -/
def TrackRange.pointAt (r : TrackRange) (distance : ℚ) : ℚ :=
  if r.direction = .StartToStop then r.beginAt + distance else r.endAt - distance

/-- A position along the ranges of a train whose location lies on a path. -/
def OnPath (path train : List TrackRange) (p : ℚ) : Prop :=
  ∃ (k : ℕ) (r proj : TrackRange), train[k]? = some r ∧ proj ∈ path ∧
    proj.trackSection = r.trackSection ∧ startOf train k ≤ p ∧ p ≤ startOf train (k + 1) ∧
    (proj.beginAt : ℚ) ≤ r.pointAt (p - startOf train k) ∧
    r.pointAt (p - startOf train k) ≤ proj.endAt

/-- The union of the intersections. -/
def covered (intersections : List Intersection) : Set ℚ :=
  {p | ∃ x ∈ intersections, x.startAt ≤ p ∧ p ≤ x.endAt}

/-- Two sets that differ in isolated points only. -/
def EqUpToIsolated (A B : Set ℚ) : Prop :=
  ∀ p ∈ symmDiff A B, ∃ ε > 0, ∀ q ∈ A ∪ B, |q - p| < ε → q = p

/-- Where the loop goes on with an intersection, the shared part of the first range reaches its end and that
    of the second one begins at its start. -/
def JoinsTouch (path train : List TrackRange) : Prop :=
  ∀ k r i proj r' i' proj', train[k]? = some r → Shares path r i proj →
    train[k + 1]? = some r' → Shares path r' i' proj' → indexDistance i' i = 1 →
    sharedStart r proj + sharedExtent r proj = r.extent ∧ sharedStart r' proj' = 0

namespace PathProjection

/-! ### Shared parts -/

/-- The range at `k` is on the path from `a` to `b`. -/
def SharedPart (path train : List TrackRange) (k a b : ℕ) : Prop :=
  ∃ r proj, train[k]? = some r ∧ proj ∈ path ∧ proj.trackSection = r.trackSection ∧
    max r.beginAt proj.beginAt ≤ min r.endAt proj.endAt ∧
    a = startOf train k + sharedStart r proj ∧ b = a + sharedExtent r proj

variable {r proj : TrackRange}

/-- The points that are in both ranges lie between these two. -/
theorem pointAt_mem_iff (hr : r.beginAt ≤ r.endAt) (d : ℚ) :
    (0 ≤ d ∧ d ≤ r.extent ∧ proj.beginAt ≤ r.pointAt d ∧ r.pointAt d ≤ proj.endAt) ↔
      (max r.beginAt proj.beginAt : ℕ) ≤ r.pointAt d ∧ r.pointAt d ≤ (min r.endAt proj.endAt : ℕ) := by
  have hextent : (r.extent : ℚ) = r.endAt - r.beginAt := cast_sub hr
  rw [cast_max, cast_min, max_le_iff, le_min_iff, hextent, TrackRange.pointAt]
  split <;> constructor <;> rintro ⟨h₁, h₂⟩ <;> refine ⟨?_, ?_⟩ <;> grind

theorem between_iff_shared (hcut : max r.beginAt proj.beginAt ≤ min r.endAt proj.endAt) (d : ℚ) :
    ((max r.beginAt proj.beginAt : ℕ) ≤ r.pointAt d ∧ r.pointAt d ≤ (min r.endAt proj.endAt : ℕ)) ↔
      sharedStart r proj ≤ d ∧ d ≤ sharedStart r proj + sharedExtent r proj := by
  rw [sharedExtent, cast_sub hcut, sharedStart, TrackRange.pointAt]
  split
  · rw [cast_sub (le_max_left _ _)]
    constructor <;> rintro ⟨h₁, h₂⟩ <;> constructor <;> linarith
  · rw [cast_sub (min_le_left _ _)]
    constructor <;> rintro ⟨h₁, h₂⟩ <;> constructor <;> linarith

theorem onPath_iff (hordered : ∀ r ∈ train, r.beginAt ≤ r.endAt) {p : ℚ} :
    OnPath path train p ↔ ∃ k a b, SharedPart path train k a b ∧ a ≤ p ∧ p ≤ b := by
  constructor
  · rintro ⟨k, r, proj, hr, hproj, htrack, hstart, hstop, hbegin, hend⟩
    rw [startOf_succ hr, cast_add] at hstop
    have hbetween := (pointAt_mem_iff (hordered r (mem_of_getElem? hr)) (p - startOf train k)).mp
      ⟨sub_nonneg.mpr hstart, by linarith, hbegin, hend⟩
    have hcut : max r.beginAt proj.beginAt ≤ min r.endAt proj.endAt := by
      exact_mod_cast hbetween.1.trans hbetween.2
    obtain ⟨hge, hle⟩ := (between_iff_shared hcut _).mp hbetween
    refine ⟨k, _, _, ⟨r, proj, hr, hproj, htrack, hcut, rfl, rfl⟩, ?_, ?_⟩
    · push_cast
      linarith
    · push_cast
      linarith
  · rintro ⟨k, a, b, ⟨r, proj, hr, hproj, htrack, hcut, rfl, rfl⟩, hge, hle⟩
    push_cast at hge hle
    have hbetween := (between_iff_shared hcut (p - startOf train k)).mpr ⟨by linarith, by linarith⟩
    obtain ⟨h0, hextent, hbegin, hend⟩ := (pointAt_mem_iff (hordered r (mem_of_getElem? hr)) _).mpr hbetween
    refine ⟨k, r, proj, hr, hproj, htrack, sub_nonneg.mp h0, ?_, hbegin, hend⟩
    rw [startOf_succ hr, cast_add]
    linarith

/-- A part that is not a single point is shared. -/
theorem SharedPart.shares (h : SharedPart path train k a b) (hlt : a < b) :
    ∃ r i proj, train[k]? = some r ∧ Shares path r i proj ∧ a = startOf train k + sharedStart r proj ∧
      b = a + sharedExtent r proj := by
  obtain ⟨r, proj, hr, hproj, htrack, -, ha, rfl⟩ := h
  obtain ⟨i, hi⟩ := mem_iff_getElem?.mp hproj
  exact ⟨r, i, proj, hr, ⟨hi, htrack, by omega⟩, ha, rfl⟩

theorem Shares.sharedPart {k i : ℕ} (hr : train[k]? = some r) (h : Shares path r i proj) :
    SharedPart path train k (startOf train k + sharedStart r proj)
      (startOf train k + sharedStart r proj + sharedExtent r proj) := by
  have hoverlap := h.overlap
  rw [sharedExtent] at hoverlap
  exact ⟨r, proj, hr, mem_of_getElem? h.at_index, h.same_track, by omega, rfl, rfl⟩

/-! ### Stretches of parts that touch -/

/-- Every shared range is in a stretch. -/
theorem exists_stretch : ∀ {k i : ℕ} {r proj : TrackRange}, train[k]? = some r → Shares path r i proj →
    ∃ start stop, Stretch path train k start stop
  | 0, _, _, _, hr, hshares => ⟨_, _, .first hr hshares fun _ hj => nomatch hj⟩
  | k + 1, _, _, _, hr, hshares => by
    by_cases hjoined : Joined path train k
    · have ⟨r₁, i₁, proj₁, _, _, _, hr₁, hshares₁, _⟩ := hjoined
      obtain ⟨start, stop, hstretch⟩ := exists_stretch hr₁ hshares₁
      exact ⟨start, _, hstretch.next hjoined hr hshares⟩
    · exact ⟨_, _, .first hr hshares fun j hj => succ.inj hj ▸ hjoined⟩

/-- Up to a range, the joined ranges touch. -/
def TouchBefore (path train : List TrackRange) (n : ℕ) : Prop :=
  ∀ k < n, ∀ r i proj r' i' proj', train[k]? = some r → Shares path r i proj →
    train[k + 1]? = some r' → Shares path r' i' proj' → indexDistance i' i = 1 →
    sharedStart r proj + sharedExtent r proj = r.extent ∧ sharedStart r' proj' = 0

variable {s : PathProjection}

/-- A stretch of ranges that touch ends where the shared part of its last range does, and is on the path. -/
theorem Indexes.stretch_exact (hs : s.Indexes path) {k start stop : ℕ}
    (h : Stretch path train k start stop) (htouch : TouchBefore path train k) :
    (∀ r i proj, train[k]? = some r → Shares path r i proj → start ≤ startOf train k + sharedStart r proj ∧
        stop = startOf train k + sharedStart r proj + sharedExtent r proj) ∧
      ∀ p : ℚ, start ≤ p → p ≤ stop → ∃ k a b, SharedPart path train k a b ∧ a ≤ p ∧ p ≤ b := by
  induction h with
  | @first k i r proj hr hshares hfirst =>
    refine ⟨fun r' i' proj' hr' hshares' => ?_, fun p hge hle => ?_⟩
    · cases hr.symm.trans hr'
      obtain ⟨-, rfl⟩ := hs.shares_unique hshares hshares'
      exact ⟨le_rfl, rfl⟩
    · exact ⟨k, _, _, hshares.sharedPart hr, hge, hle⟩
  | @next k i start stop r proj hstretch hjoined hr hshares ih =>
    obtain ⟨hlast, hon⟩ := ih fun j hj => htouch j (lt_succ_of_lt hj)
    obtain ⟨r₁, i₁, proj₁, r₂, i₂, proj₂, hr₁, hshares₁, hr₂, hshares₂, hnext⟩ := hjoined
    cases hr.symm.trans hr₂
    obtain ⟨-, rfl⟩ := hs.shares_unique hshares hshares₂
    obtain ⟨hreach, hzero⟩ := htouch k (lt_succ_self k) r₁ i₁ proj₁ r i₂ proj hr₁ hshares₁ hr₂ hshares₂ hnext
    obtain ⟨hstart, hstop⟩ := hlast r₁ i₁ proj₁ hr₁ hshares₁
    -- the shared part of the next range begins where the stretch ends
    have hmeet : startOf train (k + 1) + sharedStart r proj = stop := by
      rw [startOf_succ hr₁]
      omega
    refine ⟨fun r' i' proj' hr' hshares' => ?_, fun p hge hle => ?_⟩
    · cases hr.symm.trans hr'
      obtain ⟨-, rfl⟩ := hs.shares_unique hshares hshares'
      omega
    · rcases le_total p stop with hp | hp
      · exact hon p hge hp
      · refine ⟨k + 1, _, _, hshares.sharedPart hr, ?_, ?_⟩
        · rw [hmeet]
          exact hp
        · rw [hmeet]
          exact hle

/-! ### The positions that are covered -/

section Covered

variable {intersections : List Intersection}

theorem TouchBefore.of_joinsTouch (h : JoinsTouch path train) (n : ℕ) : TouchBefore path train n :=
  fun k _ => h k

/-- A part that is not a single point is covered. -/
theorem Indexes.sharedPart_covered (hs : s.Indexes path) (htouch : JoinsTouch path train)
    (hcomplete : ∀ k start stop, Stretch path train k start stop →
      ∃ x ∈ intersections, x.startAt = start ∧ stop ≤ x.endAt)
    (h : SharedPart path train k a b) (hlt : a < b) {p : ℚ} (hge : a ≤ p) (hle : p ≤ b) :
    p ∈ covered intersections := by
  obtain ⟨r, i, proj, hr, hshares, rfl, rfl⟩ := h.shares hlt
  obtain ⟨start, stop, hstretch⟩ := exists_stretch hr hshares
  obtain ⟨hstart, hstop⟩ := (hs.stretch_exact hstretch (.of_joinsTouch htouch k)).1 r i proj hr hshares
  obtain ⟨x, hx, hxstart, hxend⟩ := hcomplete k start stop hstretch
  refine ⟨x, hx, le_trans ?_ hge, hle.trans ?_⟩
  · exact_mod_cast hxstart.trans_le hstart
  · exact_mod_cast hstop.symm.trans_le hxend

/-- A position on the path that is not covered is alone. -/
theorem isolated_of_not_covered
    (hcovered : ∀ {k a b : ℕ}, SharedPart path train k a b → a < b → ∀ {p : ℚ}, a ≤ p → p ≤ b →
      p ∈ covered intersections) {p q : ℚ}
    (hp : ∃ k a b, SharedPart path train k a b ∧ (a : ℚ) ≤ p ∧ p ≤ b) (hnot : p ∉ covered intersections)
    (hq : ∃ k a b, SharedPart path train k a b ∧ (a : ℚ) ≤ q ∧ q ≤ b) (hnear : |q - p| < 1) : q = p := by
  obtain ⟨k, a, b, hpart, hage, hleb⟩ := hp
  obtain ⟨k', a', b', hpart', hage', hleb'⟩ := hq
  have hle : b ≤ a := not_lt.mp fun hlt => hnot (hcovered hpart hlt hage hleb)
  have hpa : p = a := le_antisymm (hleb.trans (by exact_mod_cast hle)) hage
  subst hpa
  rw [abs_lt] at hnear
  rcases lt_or_ge a' b' with hlt | hle'
  · -- the part of the other position is covered, so it does not reach this one
    have hout : a < a' ∨ b' < a := by
      by_contra hin
      push Not at hin
      exact hnot (hcovered hpart' hlt (by exact_mod_cast hin.1) (by exact_mod_cast hin.2))
    rcases hout with hout | hout
    · have : (a : ℚ) + 1 ≤ a' := by exact_mod_cast hout
      linarith
    · have : (b' : ℚ) + 1 ≤ a := by exact_mod_cast hout
      linarith
  · have hqa : q = a' := le_antisymm (hleb'.trans (by exact_mod_cast hle')) hage'
    subst hqa
    have h₁ : (a' : ℚ) < a + 1 := by linarith
    have h₂ : (a : ℚ) < a' + 1 := by linarith
    have : a' = a := by
      have h₁ : a' < a + 1 := by exact_mod_cast h₁
      have h₂ : a < a' + 1 := by exact_mod_cast h₂
      omega
    rw [this]

/-- A shared part lies along its range. -/
theorem SharedPart.within (h : SharedPart path train k a b) :
    startOf train k ≤ a ∧ b ≤ startOf train (k + 1) := by
  obtain ⟨r, proj, hr, -, -, hcut, rfl, rfl⟩ := h
  rw [startOf_succ hr]
  simp only [sharedStart, sharedExtent, TrackRange.extent]
  refine ⟨le_add_right _ _, ?_⟩
  split <;> omega

/-- Half-way into the first unit after the shared part of a range that does not touch the next one, there is
    no position on the path. -/
theorem Indexes.not_onPath_between (hs : s.Indexes path) {k i i' : ℕ} {r proj r' proj' : TrackRange}
    (hr : train[k]? = some r) (hshares : Shares path r i proj) (hr' : train[k + 1]? = some r')
    (hshares' : Shares path r' i' proj')
    (hapart : ¬ (sharedStart r proj + sharedExtent r proj = r.extent ∧ sharedStart r' proj' = 0))
    {j a b : ℕ} (h : SharedPart path train j a b)
    (hge : (a : ℚ) ≤ (startOf train k + sharedStart r proj + sharedExtent r proj : ℕ) + 1 / 2)
    (hle : (startOf train k + sharedStart r proj + sharedExtent r proj : ℕ) + 1 / 2 ≤ (b : ℚ)) : False := by
  have hend := sharedStart_add_le hshares.overlap
  have hend' := sharedStart_add_le hshares'.overlap
  have hnext := startOf_succ hr
  have hnext' := startOf_succ hr'
  -- the part is around the first unit
  have hge : a ≤ startOf train k + sharedStart r proj + sharedExtent r proj := by
    by_contra hlt
    have : ((startOf train k + sharedStart r proj + sharedExtent r proj : ℕ) : ℚ) + 1 ≤ a := by
      exact_mod_cast not_le.mp hlt
    linarith
  have hle : startOf train k + sharedStart r proj + sharedExtent r proj + 1 ≤ b := by
    by_contra hlt
    have : (b : ℚ) ≤ (startOf train k + sharedStart r proj + sharedExtent r proj : ℕ) := by
      exact_mod_cast le_of_lt_succ (not_le.mp hlt)
    linarith
  obtain ⟨hstart, hstop⟩ := h.within
  obtain ⟨r₁, i₁, proj₁, hr₁, hshares₁, rfl, rfl⟩ := h.shares (by omega)
  rcases lt_trichotomy j k with hj | rfl | hj
  · have := startOf_mono train (show j + 1 ≤ k from hj)
    omega
  · cases hr.symm.trans hr₁
    obtain ⟨-, rfl⟩ := hs.shares_unique hshares hshares₁
    omega
  · rcases lt_or_eq_of_le (show k + 1 ≤ j from hj) with hj | rfl
    · have := startOf_mono train (show k + 1 + 1 ≤ j from hj)
      omega
    · cases hr'.symm.trans hr₁
      obtain ⟨-, rfl⟩ := hs.shares_unique hshares' hshares₁
      omega

/-- When the right positions are covered, the joined ranges touch: the first two that do not leave a gap that
    is covered. -/
theorem Indexes.touchBefore_of_eq (hs : s.Indexes path) (hordered : ∀ r ∈ train, r.beginAt ≤ r.endAt)
    (hcomplete : ∀ k start stop, Stretch path train k start stop →
      ∃ x ∈ intersections, x.startAt = start ∧ stop ≤ x.endAt)
    (heq : EqUpToIsolated (covered intersections) {p | OnPath path train p}) :
    ∀ n, TouchBefore path train n
  | 0 => fun k hk => absurd hk (not_lt_zero k)
  | n + 1 => by
    have ih := hs.touchBefore_of_eq hordered hcomplete heq n
    intro k hk r i proj r' i' proj' hr hshares hr' hshares' hnext
    rcases lt_or_eq_of_le (le_of_lt_succ hk) with hk | rfl
    · exact ih k hk r i proj r' i' proj' hr hshares hr' hshares' hnext
    by_contra hapart
    obtain ⟨start, stop, hstretch⟩ := exists_stretch hr hshares
    obtain ⟨hstart, rfl⟩ := (hs.stretch_exact hstretch ih).1 r i proj hr hshares
    obtain ⟨x, hx, hxstart, hxend⟩ := hcomplete _ _ _
      (hstretch.next ⟨r, i, proj, r', i', proj', hr, hshares, hr', hshares', hnext⟩ hr' hshares')
    have hoverlap := hshares'.overlap
    -- the unit after the shared part is covered, but its middle is not on the path
    set stop := startOf train k + sharedStart r proj + sharedExtent r proj with hstop
    have hlow : (x.startAt : ℚ) ≤ stop := by exact_mod_cast (show x.startAt ≤ stop by omega)
    have hhigh : (stop : ℚ) + 1 ≤ x.endAt := by exact_mod_cast (show stop + 1 ≤ x.endAt by omega)
    have hin : ∀ q : ℚ, stop ≤ q → q ≤ stop + 1 → q ∈ covered intersections := fun q hge hle =>
      ⟨x, hx, hlow.trans hge, hle.trans hhigh⟩
    have hout : ¬ OnPath path train (stop + 1 / 2) := by
      intro hon
      obtain ⟨j, a, b, hpart, hge, hle⟩ := (onPath_iff hordered).mp hon
      exact hs.not_onPath_between hr hshares hr' hshares' hapart hpart hge hle
    obtain ⟨ε, hε, halone⟩ := heq (stop + 1 / 2)
      (Set.mem_symmDiff.mpr (.inl ⟨hin _ (by linarith) (by linarith), hout⟩))
    have hmin : 0 < min ε (1 / 2) := lt_min hε (by norm_num)
    have hle₁ := min_le_left ε (1 / 2)
    have hle₂ := min_le_right ε (1 / 2)
    have hsame := halone (stop + 1 / 2 + min ε (1 / 2) / 2)
      (.inl (hin _ (by linarith) (by linarith))) (by rw [abs_lt]; constructor <;> linarith)
    linarith

end Covered

/-- The intersections cover the positions on the path, up to isolated ones, exactly when the shared parts of
    joined ranges touch. -/
theorem covered_eq_onPath_iff (hpath : ValidPath path) (htrain : ValidPath train) :
    ∃ s intersections, new path = some s ∧ s.getIntersections train = some intersections ∧
      (EqUpToIsolated (covered intersections) {p | OnPath path train p} ↔ JoinsTouch path train) := by
  obtain ⟨s, hnew, hspath, hs⟩ := new_spec hpath
  have hordered : ∀ r ∈ train, r.beginAt ≤ r.endAt := fun r hr => (htrain.ordered r hr).le
  obtain ⟨intersections, hanswer, -, hstretches, hcomplete⟩ := hs.getIntersections_spec hspath hordered
  refine ⟨s, intersections, hnew, hanswer, fun heq k => ?_, fun htouch p hp => ⟨1, one_pos, ?_⟩⟩
  · exact hs.touchBefore_of_eq hordered hcomplete heq (k + 1) k (lt_succ_self k)
  · have hon : ∀ q ∈ covered intersections, OnPath path train q := by
      rintro q ⟨x, hx, hge, hle⟩
      obtain ⟨k, hstretch⟩ := hstretches x hx
      exact (onPath_iff hordered).mpr
        ((hs.stretch_exact hstretch (.of_joinsTouch htouch k)).2 q hge hle)
    rcases Set.mem_symmDiff.mp hp with ⟨hcov, hnot⟩ | ⟨hpon, hnot⟩
    · exact absurd (hon p hcov) hnot
    · intro q hq hnear
      have hqon : OnPath path train q := hq.elim (hon q) id
      exact isolated_of_not_covered (hs.sharedPart_covered htouch hcomplete)
        ((onPath_iff hordered).mp hpon) hnot ((onPath_iff hordered).mp hqon) hnear

/-- Two ranges, on two tracks. -/
def twoTracks (beginA endA beginB endB : ℕ) : List TrackRange :=
  [⟨"a", beginA, endA, .StartToStop⟩, ⟨"b", beginB, endB, .StartToStop⟩]

theorem twoTracks_valid {beginA endA beginB endB : ℕ} (ha : beginA < endA) (hb : beginB < endB) :
    ValidPath (twoTracks beginA endA beginB endB) where
  distinct := by simp [twoTracks]
  ordered := by simp [twoTracks, ha, hb]

/-- A train that comes onto the path in the middle of a track and leaves it in the middle of the next. -/
theorem covered_eq_onPath_across : ∃ s intersections, new (twoTracks 50 100 0 70) = some s ∧
    s.getIntersections (twoTracks 0 100 0 100) = some intersections ∧
    EqUpToIsolated (covered intersections)
      {p | OnPath (twoTracks 50 100 0 70) (twoTracks 0 100 0 100) p} := by
  obtain ⟨s, intersections, hnew, hanswer, hiff⟩ := covered_eq_onPath_iff
    (twoTracks_valid (show 50 < 100 by decide) (show 0 < 70 by decide))
    (twoTracks_valid (show 0 < 100 by decide) (show 0 < 100 by decide))
  refine ⟨s, intersections, hnew, hanswer, hiff.mpr ?_⟩
  rintro (_ | _ | k) r i proj r' i' proj' hr hshares hr' hshares' -
  · cases hr
    cases hr'
    have hproj := mem_of_getElem? hshares.at_index
    have hproj' := mem_of_getElem? hshares'.at_index
    have htrack := hshares.same_track
    have htrack' := hshares'.same_track
    simp only [twoTracks, mem_cons, not_mem_nil, or_false] at hproj hproj'
    rcases hproj with rfl | rfl
    · rcases hproj' with rfl | rfl
      · exact absurd htrack' (by decide)
      · decide
    · exact absurd htrack (by decide)
  · exact nomatch hr'
  · exact nomatch hr

/-- The loop goes on over the second half of the first track and the first half of the second one, which are
    not on the path. -/
theorem covered_gap : ∃ s, new (twoTracks 0 50 50 100) = some s ∧
    s.getIntersections (twoTracks 0 100 0 100) = some [⟨0, 100⟩] ∧ ¬ EqUpToIsolated (covered [⟨0, 100⟩])
      {p | OnPath (twoTracks 0 50 50 100) (twoTracks 0 100 0 100) p} := by
  have hpath := twoTracks_valid (show 0 < 50 by decide) (show 50 < 100 by decide)
  obtain ⟨s, hnew, hspath, hs⟩ := new_spec hpath
  have hordered : ∀ r ∈ twoTracks 0 100 0 100, r.beginAt ≤ r.endAt := by simp [twoTracks]
  have hcode : ((new (twoTracks 0 50 50 100)).bind (·.getIntersections (twoTracks 0 100 0 100))) =
      some [⟨0, 100⟩] := by decide +kernel
  rw [hnew] at hcode
  obtain ⟨intersections, hanswer, -, -, hcomplete⟩ := hs.getIntersections_spec hspath hordered
  cases hanswer.symm.trans hcode
  refine ⟨s, hnew, hcode, fun heq => ?_⟩
  have htouch := hs.touchBefore_of_eq hordered hcomplete heq 1 0 Nat.one_pos _ 0 _ _ 1 _ rfl
    ⟨rfl, rfl, by decide⟩ rfl ⟨rfl, rfl, by decide⟩ rfl
  exact absurd htouch.1 (by decide)

end PathProjection

end Osrd.Projection
