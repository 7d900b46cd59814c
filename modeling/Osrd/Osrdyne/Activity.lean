import Mathlib.Data.List.Chain

/-! Model of `activity_processor` (`osrdyne/src/pool.rs`): activity deliveries become
    `require_worker_group` calls, and some of them are dropped to spare the tracker.

    A delivery is dropped when the one before it is more than `extra_lifetime` old, so the deliveries of a
    key are all covered by a requirement exactly when they follow each other within `extra_lifetime`. -/

namespace Osrd.Osrdyne

open List Function

/-- A message of the activity queue and the time it is received. -/
structure Delivery (Key : Type) where
  key : Key
  now : ℕ

/-- A `require_worker_group` call and the time it is made. -/
structure Requirement (Key : Type) where
  key : Key
  extraLifetime : ℕ
  time : ℕ

/-- The variables of the loop and the calls made so far. -/
structure ActivityProcessor (Key : Type) where
  lastActivities : Key → Option ℕ
  required : List (Requirement Key)

namespace ActivityProcessor

variable {Key ε : Type} [DecidableEq Key]

def start : ActivityProcessor Key := ⟨fun _ => none, []⟩

/-- One turn of the loop. -/
def handle (extraLifetime : ℕ) (s : ActivityProcessor Key) (delivery : Delivery Key) :
    ActivityProcessor Key :=
  let lastActivities := update s.lastActivities delivery.key (some delivery.now)
  -- debouncing
  if (s.lastActivities delivery.key).any (· + extraLifetime < delivery.now) then
    { s with lastActivities := lastActivities }
  else
    { lastActivities := lastActivities
      required := s.required ++ [⟨delivery.key, extraLifetime, delivery.now⟩] }

/-- The loop over the consumer, which ends with the first error of the channel. -/
def activityProcessor (extraLifetime : ℕ) :
    ActivityProcessor Key → List (Except ε (Delivery Key)) → ActivityProcessor Key × Except ε Unit
  | s, [] => (s, .ok ())
  | s, .error e :: _ => (s, .error e)
  | s, .ok delivery :: deliveries =>
      activityProcessor extraLifetime (s.handle extraLifetime delivery) deliveries

/-- The state after deliveries that all arrive. -/
def run (extraLifetime : ℕ) (deliveries : List (Delivery Key)) : ActivityProcessor Key :=
  deliveries.foldl (handle extraLifetime) start

theorem activityProcessor_map_ok (extra : ℕ) : ∀ (ds : List (Delivery Key)) (s : ActivityProcessor Key),
    activityProcessor extra s (ds.map (.ok : _ → Except ε _)) = (ds.foldl (handle extra) s, .ok ())
  | [], _ => rfl
  | _ :: ds, _ => activityProcessor_map_ok extra ds _

/-- Some call of the last `extraLifetime` keeps the worker group of the delivery active. -/
def Covers (extraLifetime : ℕ) (s : ActivityProcessor Key) (delivery : Delivery Key) : Prop :=
  ∃ r ∈ s.required, r.key = delivery.key ∧ r.extraLifetime = extraLifetime ∧
    delivery.now ≤ r.time + extraLifetime ∧ r.time ≤ delivery.now

/-! ### What a turn does -/

variable {extra : ℕ} {s : ActivityProcessor Key} {delivery : Delivery Key}

theorem handle_lastActivities : (s.handle extra delivery).lastActivities =
    update s.lastActivities delivery.key (some delivery.now) := by
  rw [handle]
  split <;> rfl

/-- A turn makes no call exactly when the delivery before is too old. -/
theorem handle_required : (s.handle extra delivery).required =
    if (s.lastActivities delivery.key).any (· + extra < delivery.now) then s.required
    else s.required ++ [⟨delivery.key, extra, delivery.now⟩] := by
  rw [handle]
  split <;> rfl

/-! ### Runs -/

def ofKey (key : Key) (deliveries : List (Delivery Key)) : List (Delivery Key) :=
  deliveries.filter (·.key = key)

theorem ofKey_concat (key : Key) (ds : List (Delivery Key)) (delivery : Delivery Key) :
    ofKey key (ds ++ [delivery]) =
      if delivery.key = key then ofKey key ds ++ [delivery] else ofKey key ds := by
  by_cases hkey : delivery.key = key <;> simp [ofKey, hkey]

variable (ds : List (Delivery Key))

theorem run_concat (delivery : Delivery Key) : run extra (ds ++ [delivery]) =
      (run extra ds).handle extra delivery := by
  rw [run, foldl_append]
  rfl

theorem run_lastActivities (key : Key) (ds : List (Delivery Key)) : (run extra ds).lastActivities key =
      (ofKey key ds).getLast?.map Delivery.now := by
  induction ds using reverseRecOn with
  | nil => rfl
  | append_singleton ds delivery ih =>
    rw [run_concat, handle_lastActivities, ofKey_concat]
    rcases eq_or_ne delivery.key key with rfl | hkey
    · rw [update_self, if_pos rfl, getLast?_concat]
      rfl
    · rw [update_of_ne hkey.symm, if_neg hkey, ih]

/-- Calls for a key are made at its deliveries, so none is later than the last of them. -/
theorem run_required_le {ds : List (Delivery Key)} (hsorted : ds.Pairwise (·.now ≤ ·.now)) :
    ∀ r ∈ (run extra ds).required, ∃ last ∈ (ofKey r.key ds).getLast?, r.time ≤ last.now := by
  induction ds using reverseRecOn with
  | nil => simp [run, start]
  | append_singleton ds delivery ih =>
    obtain ⟨hbefore, -, hle⟩ := pairwise_append.mp hsorted
    intro r hr
    rw [run_concat, handle_required] at hr
    have hcases : r ∈ (run extra ds).required ∨
        r = ⟨delivery.key, extra, delivery.now⟩ := by
      split at hr
      · exact .inl hr
      · simpa using hr
    rw [ofKey_concat]
    rcases hcases with hr | rfl
    · obtain ⟨last, hlast, htime⟩ := ih hbefore r hr
      split
      · have hmem : last ∈ ds := mem_of_mem_filter (mem_of_mem_getLast? hlast)
        exact ⟨delivery, by simp, htime.trans (hle last hmem delivery (by simp))⟩
      · exact ⟨last, hlast, htime⟩
    · exact ⟨delivery, by simp, le_rfl⟩

/-- A delivery is covered exactly when the one before it is recent. -/
theorem covers_concat_iff {ds : List (Delivery Key)} (hsorted : ds.Pairwise (·.now ≤ ·.now)) :
    Covers extra (run extra (ds ++ [delivery])) delivery ↔ ∀ last ∈ (ofKey delivery.key ds).getLast?,
        delivery.now ≤ last.now + extra := by
  rw [run_concat, Covers, handle_required, run_lastActivities]
  constructor
  · rintro ⟨r, hr, hkey, -, hrecent, -⟩ last hlast
    by_contra hold
    rw [Option.mem_def.mp hlast, if_pos (by simpa using hold)] at hr
    obtain ⟨last', hlast', htime⟩ := run_required_le hsorted r hr
    rw [hkey, Option.mem_def.mp hlast] at hlast'
    cases hlast'
    omega
  · intro hrecent
    rw [if_neg]
    · exact ⟨⟨delivery.key, extra, delivery.now⟩, by simp, rfl, rfl, by simp, le_rfl⟩
    · cases hlast : (ofKey delivery.key ds).getLast? with
      | none => simp
      | some last => simpa using hrecent last hlast

theorem isChain_ofKey_concat (delivery : Delivery Key) :
    (∀ key, (ofKey key (ds ++ [delivery])).IsChain fun d d' => d'.now ≤ d.now + extra) ↔
      (∀ key, (ofKey key ds).IsChain fun d d' => d'.now ≤ d.now + extra) ∧
      ∀ last ∈ (ofKey delivery.key ds).getLast?, delivery.now ≤ last.now + extra := by
  have hself : ofKey delivery.key (ds ++ [delivery]) =
      ofKey delivery.key ds ++ [delivery] := by rw [ofKey_concat, if_pos rfl]
  constructor
  · intro h
    constructor
    · intro key
      have hkey := h key
      rw [ofKey_concat] at hkey
      split at hkey
      · exact hkey.left_of_append
      · exact hkey
    · have hkey := h delivery.key
      rw [hself, isChain_append] at hkey
      exact fun last hlast => hkey.2.2 last hlast delivery (by simp)
  · rintro ⟨h, hlast⟩ key
    rw [ofKey_concat]
    split
    · next hkey =>
      subst hkey
      refine isChain_append.mpr ⟨h _, isChain_singleton delivery, ?_⟩
      rintro last hmem d hd
      cases hd
      exact hlast last hmem
    · exact h key

/-- Every delivery is covered when it has been handled if and only if the deliveries of each key follow
    each other within the extra lifetime. -/
theorem activityProcessor_covers_iff
    (hsorted : ds.Pairwise (·.now ≤ ·.now)) : (∀ before delivery, before ++ [delivery] <+: ds →
      Covers extra (activityProcessor extra start
        ((before ++ [delivery]).map (.ok : _ → Except ε _))).1 delivery) ↔
    ∀ key, (ofKey key ds).IsChain fun d d' => d'.now ≤ d.now + extra := by
  simp only [activityProcessor_map_ok]
  induction ds using reverseRecOn with
  | nil => simp [ofKey]
  | append_singleton ds delivery ih =>
    have hbefore := (pairwise_append.mp hsorted).1
    rw [isChain_ofKey_concat, ← ih hbefore, ← covers_concat_iff hbefore]
    constructor
    · intro h
      exact ⟨fun before d hd => h before d (hd.trans (prefix_append _ _)), h ds delivery (prefix_refl _)⟩
    · rintro ⟨h, hlast⟩ before d hd
      rcases prefix_concat_iff.mp hd with heq | hpre
      · obtain ⟨rfl, heq'⟩ := append_inj' heq rfl
        cases heq'
        exact hlast
      · exact h before d hpre

theorem activityProcessor_covers_burst :
    Covers 5 (activityProcessor 5 start [(.ok ⟨(), 0⟩ : Except Unit _), .ok ⟨(), 4⟩]).1 ⟨(), 4⟩ :=
  (activityProcessor_covers_iff (ε := Unit) [⟨(), 0⟩, ⟨(), 4⟩] (by simp)).mpr
    (fun _ => by simp [ofKey]) [⟨(), 0⟩] ⟨(), 4⟩ (prefix_refl _)

/-- A delivery 6 after the last one of its worker group is dropped and nothing covers it. -/
theorem activityProcessor_drops_late :
    (activityProcessor 5 start [(.ok ⟨(), 0⟩ : Except Unit _), .ok ⟨(), 6⟩]).1.required = [⟨(), 5, 0⟩] ∧
    ¬ Covers 5 (activityProcessor 5 start [(.ok ⟨(), 0⟩ : Except Unit _), .ok ⟨(), 6⟩]).1 ⟨(), 6⟩ := by
  refine ⟨rfl, ?_⟩
  rintro ⟨r, hr, -, -, hrecent, -⟩
  cases mem_singleton.mp hr
  exact absurd hrecent (by decide)

end ActivityProcessor

end Osrd.Osrdyne
