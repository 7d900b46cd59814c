import Mathlib
import Osrd.InfraErrors.AutoFixes

/-! What the patch of a fix does to the parts of an object.

    Each operation changes the array of the parts at one index. The operations of a fix are at most one per
    index; sorted, the positions are written first and the parts are removed from the last to the first, so
    that every index is still the one it was computed as. -/

namespace Osrd.InfraErrors

open Infra (ObjectRef)
open JsonPatch JsonPatch.Operation List

variable {K Obj : Type}

/-! ### Parts in a document -/

/-- The part that a value describes, whatever other fields it has. -/
def partOf (value : Value K) : Option (PartCache K) :=
  match JsonPatch.child (.key "track") value, JsonPatch.child (.key "position") value with
  | some (.str track), some (.num position) => some ⟨track, position⟩
  | _, _ => none

/-- The document of an object with these parts. -/
def PartsOf (document : Value K) (parts : List (PartCache K)) : Prop :=
  ∃ items, JsonPatch.get [.key "parts"] document = some (.array items) ∧
    items.map partOf = parts.map some

variable {parts parts' : List (PartCache K)}

theorem PartsOf.unique {document : Value K} (h : PartsOf document parts) (h' : PartsOf document parts') :
    parts = parts' := by
  obtain ⟨items, hget, hparts⟩ := h
  obtain ⟨items', hget', hparts'⟩ := h'
  cases hget.symm.trans hget'
  exact map_injective_iff.mpr (Option.some_injective _) (hparts.symm.trans hparts')

theorem exists_partsOf (parts : List (PartCache K)) : ∃ document, PartsOf document parts := by
  refine ⟨.object [("parts", .array (parts.map fun part =>
    .object [("track", .str part.track), ("position", .num part.position)]))], _, rfl, ?_⟩
  rw [map_map]
  rfl

theorem partOf_setPosition {value : Value K} {part : PartCache K} {position : K}
    (h : partOf value = some part) : (child (.key "position") value).isSome ∧
      partOf (setChild (.num position) (.key "position") value) =
        some { part with position := position } := by
  unfold partOf at h
  split at h
  · next track old htrack hold =>
    cases h
    have hkept : child (.key "track") (setChild (.num position) (.key "position") value) =
        some (.str track) := by
      cases value <;> simp only [child, reduceCtorEq] at htrack
      exact (field_setField_of_ne (by decide) _).trans htrack
    rw [hold, partOf, hkept, child_setChild hold]
    exact ⟨rfl, rfl⟩
  · cases h

/-! ### One operation -/

variable {operations : List (OrderedOperation K)} {operation : OrderedOperation K}

namespace OrderedOperation

/-- The operations on the array of the parts. -/
def onArray : OrderedOperation K → List (JsonPatch.Operation K)
  | .RemoveTrackRef i => [.remove [] (.index i)]
  | .UpdatePosition i position => [.replace [.index i, .key "position"] (.num position)]
  | .Delete => []

/-- What the operation does to the parts. -/
def onParts (parts : List (PartCache K)) : OrderedOperation K → Option (List (PartCache K))
  | .RemoveTrackRef i => if i < parts.length then some (parts.eraseIdx i) else none
  | .UpdatePosition i position =>
      if i < parts.length then some (parts.modify i fun part => { part with position := position })
      else none
  | .Delete => some parts

theorem applyAll_onArray {items : List (Value K)} (hparts : items.map partOf = parts.map some)
    (hon : operation.onParts parts = some parts') :
    ∃ items', applyAll operation.onArray (.array items) = some (.array items') ∧
      items'.map partOf = parts'.map some := by
  have hlength : items.length = parts.length := by simpa using congrArg length hparts
  cases operation with
  | RemoveTrackRef i =>
    obtain ⟨hi, hon⟩ := Option.ite_none_right_eq_some.mp hon
    cases hon
    refine ⟨items.eraseIdx i, ?_, ?_⟩
    · simp [applyAll, onArray, apply, JsonPatch.modify, removeChild, hlength, hi]
    · rw [← eraseIdx_map, hparts, eraseIdx_map]
  | UpdatePosition i position =>
    obtain ⟨hi, hon⟩ := Option.ite_none_right_eq_some.mp hon
    cases hon
    have hitem : partOf items[i] = some parts[i] := by
      have := congrArg (·[i]?) hparts
      simpa [hlength, hi] using this
    obtain ⟨hsome, hset⟩ := @partOf_setPosition _ _ _ position hitem
    obtain ⟨old, hold⟩ := Option.isSome_iff_exists.mp hsome
    refine ⟨items.set i (setChild (.num position) (.key "position") items[i]), ?_, ?_⟩
    · simp [applyAll, onArray, apply, JsonPatch.modify, hlength, hi, hold]
    · rw [map_set, hparts, hset, modify_eq_set_get _ hi, map_set]
      rfl
  | Delete =>
    cases hon
    exact ⟨items, rfl, hparts⟩

theorem applyAll_flatMap_onArray : ∀ {operations : List (OrderedOperation K)} {items : List (Value K)}
    {parts parts' : List (PartCache K)}, items.map partOf = parts.map some →
    operations.foldlM onParts parts = some parts' →
    ∃ items', applyAll (operations.flatMap onArray) (.array items) = some (.array items') ∧
      items'.map partOf = parts'.map some
  | [], items, _, _, hparts, hon => by
    cases hon
    exact ⟨items, rfl, hparts⟩
  | operation :: operations, items, parts, parts', hparts, hon => by
    obtain ⟨parts₁, hfirst, hrest⟩ := Option.bind_eq_some_iff.mp hon
    obtain ⟨items₁, happly, hparts₁⟩ := applyAll_onArray hparts hfirst
    obtain ⟨items', hall, hparts'⟩ := applyAll_flatMap_onArray hparts₁ hrest
    refine ⟨items', ?_, hparts'⟩
    rw [flatMap_cons, applyAll_append, happly]
    exact hall

/-- The patch, applied to the document of the object. -/
theorem applyAll_document {document : Value K} (hdocument : PartsOf document parts)
    (hon : operations.foldlM onParts parts = some parts') : ∃ after, applyAll
        ((operations.flatMap onArray).map (under [.key "parts"])) document =
          some after ∧ PartsOf after parts' := by
  obtain ⟨items, hget, hparts⟩ := hdocument
  obtain ⟨items', happly, hparts'⟩ := applyAll_flatMap_onArray hparts hon
  obtain ⟨after, hafter, hnew⟩ := modify_const (.array items') hget
  refine ⟨after, ?_, items', hnew, hparts'⟩
  rw [applyAll_under hget, happly, hafter]

/-! ### The merge of the patches -/

theorem toOperation_eq (h : operation ≠ .Delete) (object : ObjectRef) :
    (operation.toOperation object : Operation Obj K) =
      .Update object (operation.onArray.map (under [.key "parts"])) := by
  cases operation with
  | RemoveTrackRef i => rfl
  | UpdatePosition i position => rfl
  | Delete => exact absurd rfl h

variable {patchInfraObject : Obj → List (JsonPatch.Operation K) → Option Obj}

theorem foldl_reduceOperation (object : ObjectRef) : ∀ patches patch : List (List (JsonPatch.Operation K)),
    ((patches.map (.Update object)).map some).foldl (reduceOperation patchInfraObject)
      (some (.Update object patch.flatten)) = some (.Update object (patch ++ patches).flatten)
  | [], patch => by simp
  | next :: patches, patch => by
    have hrest := foldl_reduceOperation object patches (patch ++ [next])
    rw [flatten_append, flatten_singleton, append_assoc] at hrest
    exact hrest

/-- Patches of one object make one update. -/
theorem reduceOperations_updates {patches : List (List (JsonPatch.Operation K))} (hne : patches ≠ [])
    (object : ObjectRef) : reduceOperations patchInfraObject (patches.map (.Update object)) =
      some (.Update object patches.flatten) := by
  cases patches with
  | nil => exact absurd rfl hne
  | cons patch patches =>
    have hfold := @foldl_reduceOperation _ _ patchInfraObject object patches [patch]
    rwa [flatten_singleton] at hfold

theorem reduceOperations_update (hdelete : .Delete ∉ operations) (hne : operations ≠ [])
    (object : ObjectRef) : reduceOperations patchInfraObject (operations.map (·.toOperation object)) =
      some (.Update object ((operations.flatMap onArray).map (under [.key "parts"]))) := by
  have hpatches : operations.map (·.toOperation object : _ → Operation Obj K) =
      (operations.map fun operation =>
      operation.onArray.map (under [.key "parts"])).map
        (.Update object) := by
    rw [map_map]
    exact map_congr_left fun _ hop => toOperation_eq (ne_of_mem_of_not_mem hop hdelete) object
  rw [hpatches, reduceOperations_updates (map_eq_nil_iff.not.mpr hne), ← flatMap_def, map_flatMap]

end OrderedOperation

/-! ### At most one operation per index -/

open OrderedOperation

/-- One operation per part at most, for the parts from an index on, from the last to the first. -/
def descending (operation : ℕ → PartCache K → Option (OrderedOperation K)) :
    ℕ → List (PartCache K) → List (OrderedOperation K)
  | _, [] => []
  | i, part :: parts => descending operation (i + 1) parts ++ (operation i part).toList

variable {operation : ℕ → PartCache K → Option (OrderedOperation K)}

theorem mem_descending {op : OrderedOperation K} : ∀ {i : ℕ} {parts : List (PartCache K)},
    op ∈ descending operation i parts ↔
      ∃ j part, parts[j]? = some part ∧ operation (i + j) part = some op
  | i, [] => by simp [descending]
  | i, part :: parts => by
    rw [descending, mem_append, mem_descending, Option.mem_toList]
    constructor
    · rintro (⟨j, part', hpart, hop⟩ | hfirst)
      · rw [Nat.add_right_comm] at hop
        exact ⟨j + 1, part', hpart, hop⟩
      · exact ⟨0, part, rfl, hfirst⟩
    · rintro ⟨j, part', hpart, hop⟩
      cases j with
      | zero =>
        cases hpart
        exact .inr hop
      | succ j =>
        rw [← Nat.add_assoc, Nat.add_right_comm] at hop
        exact .inl ⟨j, part', hpart, hop⟩

theorem modify_append_cons {α : Type} (pre rest : List α) (a : α) (f : α → α) :
    (pre ++ a :: rest).modify pre.length f = pre ++ f a :: rest := by
  have hlt : pre.length < (pre ++ a :: rest).length := by simp
  rw [modify_eq_take_cons_drop hlt]
  simp

section Masks

variable (removed updated : ℕ → Bool) (position : PartCache K → K)

/-- The positions that are written. -/
def updates : List (PartCache K) → List (OrderedOperation K) :=
  descending (fun i part => if updated i then some (.UpdatePosition i (position part)) else none) 0

/-- The parts that are removed. -/
def removals : List (PartCache K) → List (OrderedOperation K) :=
  descending (fun i _ => if removed i then some (.RemoveTrackRef i) else none) 0

def updatedParts : ℕ → List (PartCache K) → List (PartCache K)
  | _, [] => []
  | i, part :: parts =>
      (if updated i then { part with position := position part } else part) :: updatedParts (i + 1) parts

def keptParts : ℕ → List (PartCache K) → List (PartCache K)
  | _, [] => []
  | i, part :: parts => if removed i then keptParts (i + 1) parts else part :: keptParts (i + 1) parts

/-- From the last to the first, a part is still at its index when it is its turn. -/
theorem foldlM_descending {after : ℕ → List (PartCache K) → List (PartCache K)} (hnil : ∀ i, after i [] = [])
    (hcons : ∀ pre part parts, (operation pre.length part).toList.foldlM onParts
      (pre ++ part :: after (pre.length + 1) parts) = some (pre ++ after pre.length (part :: parts))) :
    ∀ parts pre : List (PartCache K), (descending operation pre.length parts).foldlM onParts (pre ++ parts) =
      some (pre ++ after pre.length parts)
  | [], pre => by rw [hnil]; rfl
  | part :: parts, pre => by
    have hrest := foldlM_descending hnil hcons parts (pre ++ [part])
    rw [length_append, length_singleton, append_assoc, singleton_append] at hrest
    rw [descending, foldlM_append, hrest, append_assoc, singleton_append]
    exact hcons pre part parts

theorem foldlM_updates (parts : List (PartCache K)) : (updates updated position parts).foldlM onParts parts =
    some (updatedParts updated position 0 parts) := by
  refine foldlM_descending (fun _ => rfl) (fun pre part parts => ?_) parts []
  rw [updatedParts]
  cases updated pre.length with
  | false => rfl
  | true => simp [onParts, modify_append_cons]

theorem foldlM_removals (parts : List (PartCache K)) :
    (removals removed parts).foldlM onParts parts = some (keptParts removed 0 parts) := by
  refine foldlM_descending (fun _ => rfl) (fun pre part parts => ?_) parts []
  rw [keptParts]
  cases removed pre.length with
  | false => rfl
  | true => simp [onParts, eraseIdx_append_of_length_le]

/-- A part that is neither removed nor updated is left as it is. -/
theorem mem_keptParts_updatedParts {part : PartCache K} : ∀ {parts : List (PartCache K)} {i j : ℕ},
    parts[j]? = some part → removed (i + j) = false → updated (i + j) = false →
    part ∈ keptParts removed i (updatedParts updated position i parts)
  | head :: parts, i, 0, hpart, hremoved, hupdated => by
    cases hpart
    rw [Nat.add_zero] at hremoved hupdated
    rw [updatedParts, keptParts, hremoved, hupdated]
    exact mem_cons_self
  | head :: parts, i, j + 1, hpart, hremoved, hupdated => by
    rw [← Nat.add_assoc, Nat.add_right_comm] at hremoved hupdated
    have hrest := mem_keptParts_updatedParts (j := j) hpart hremoved hupdated
    rw [updatedParts, keptParts]
    split
    · exact hrest
    · exact mem_cons_of_mem _ hrest

/-- Writing positions does not move a part. -/
theorem removals_updatedParts (parts : List (PartCache K)) :
    removals removed (updatedParts updated position 0 parts) = removals removed parts := by
  suffices hall : ∀ (parts : List (PartCache K)) (i : ℕ),
      descending (K := K) (fun i _ => if removed i then some (.RemoveTrackRef i) else none) i
        (updatedParts updated position i parts) =
      descending (fun i _ => if removed i then some (.RemoveTrackRef i) else none) i parts from
    hall parts 0
  intro parts
  induction parts with
  | nil => exact fun i => rfl
  | cons part parts ih =>
    intro i
    rw [updatedParts, descending, descending, ih]

theorem foldlM_updates_removals (parts : List (PartCache K)) :
    (updates updated position parts ++ removals removed parts).foldlM onParts parts =
      some (keptParts removed 0 (updatedParts updated position 0 parts)) := by
  rw [foldlM_append, foldlM_updates, ← removals_updatedParts removed updated position parts]
  exact foldlM_removals removed _

end Masks

/-! ### The sort -/

section Sorting

variable [LinearOrder K]

/-- Removals, then positions, then the deletion of the object. -/
def OrderedOperation.key : OrderedOperation K → ℕ ⊕ₗ (ℕ ×ₗ K) ⊕ₗ Unit
  | .RemoveTrackRef i => Sum.inlₗ i
  | .UpdatePosition i position => Sum.inrₗ (Sum.inlₗ (toLex (i, position)))
  | .Delete => Sum.inrₗ (Sum.inrₗ ())

theorem OrderedOperation.le_iff {a b : OrderedOperation K} : a.le b ↔ a.key ≤ b.key := by
  cases a <;> cases b <;> simp [le, key, Prod.Lex.toLex_le_toLex]

theorem OrderedOperation.le_antisymm {a b : OrderedOperation K} (hab : a.le b) (hba : b.le a) :
    a = b := by
  have hkey := (le_iff.mp hab).antisymm (le_iff.mp hba)
  cases a <;> cases b <;> simp_all [key]

/-- Strictly before in the order of the sort. -/
def Precedes (a b : OrderedOperation K) : Prop := b.le a ∧ a ≠ b

theorem descending_pairwise {make : ℕ → PartCache K → OrderedOperation K} (mask : ℕ → Bool)
    (hmake : ∀ {i j part part'}, i < j → Precedes (make j part') (make i part)) :
    ∀ (i : ℕ) (parts : List (PartCache K)),
      (descending (fun i part => if mask i then some (make i part) else none) i parts).Pairwise Precedes
  | _, [] => .nil
  | i, part :: parts => by
    refine pairwise_append.mpr ⟨descending_pairwise mask hmake (i + 1) parts, ?_, ?_⟩
    · dsimp only
      split <;> simp
    · intro b hb a ha
      obtain ⟨j, part', -, hop⟩ := mem_descending.mp hb
      obtain ⟨-, rfl⟩ := Option.ite_some_none_eq_some.mp hop
      obtain ⟨-, rfl⟩ := Option.ite_some_none_eq_some.mp (Option.mem_toList.mp ha)
      exact hmake (by omega)

variable (removed updated : ℕ → Bool) (position : PartCache K → K)

theorem updates_removals_pairwise (parts : List (PartCache K)) :
    (updates updated position parts ++ removals removed parts).Pairwise Precedes := by
  refine pairwise_append.mpr ⟨descending_pairwise updated (fun hlt => ⟨?_, fun heq => ?_⟩) 0 parts,
    descending_pairwise removed (fun hlt => ⟨?_, fun heq => ?_⟩) 0 parts, ?_⟩
  · simp [le, hlt]
  · exact absurd (OrderedOperation.UpdatePosition.inj heq).1 hlt.ne'
  · simp [le, hlt.le]
  · exact absurd (OrderedOperation.RemoveTrackRef.inj heq) hlt.ne'
  · intro a ha b hb
    obtain ⟨i, part, -, ha⟩ := mem_descending.mp ha
    obtain ⟨j, part', -, hb⟩ := mem_descending.mp hb
    obtain ⟨-, rfl⟩ := Option.ite_some_none_eq_some.mp ha
    obtain ⟨-, rfl⟩ := Option.ite_some_none_eq_some.mp hb
    exact ⟨rfl, fun heq => nomatch heq⟩

theorem eraseDups_nodup {α : Type} [BEq α] [LawfulBEq α] : ∀ as : List α, as.eraseDups.Nodup
  | [] => by simp
  | a :: as => by
    rw [eraseDups_cons]
    refine nodup_cons.mpr ⟨by simp, eraseDups_nodup _⟩
termination_by as => as.length
decreasing_by exact Nat.lt_succ_of_le (length_filter_le _ _)

theorem mem_sortOperations {op : OrderedOperation K} :
    op ∈ sortOperations operations ↔ op ∈ operations :=
  (mergeSort_perm _ _).mem_iff.trans mem_eraseDups

theorem sortOperations_pairwise (operations : List (OrderedOperation K)) :
    (sortOperations operations).Pairwise Precedes := by
  refine List.Pairwise.and ?_ ((mergeSort_perm _ _).nodup_iff.mpr (eraseDups_nodup operations))
  exact @pairwise_mergeSort _ (fun a b => le b a)
    (fun _ _ _ hab hbc => le_iff.mpr ((le_iff.mp hbc).trans (le_iff.mp hab)))
    (fun a b => (Bool.or_eq_true _ _).mpr ((le_total b.key a.key).imp le_iff.mpr le_iff.mpr)) _

/-- The sort is determined by which operations there are. -/
theorem sortOperations_eq {parts : List (PartCache K)}
    (hmem : ∀ op, op ∈ operations ↔ op ∈ updates updated position parts ++ removals removed parts) :
    sortOperations operations = updates updated position parts ++ removals removed parts := by
  have hpairwise := updates_removals_pairwise removed updated position parts
  have hsorted := sortOperations_pairwise operations
  refine List.Perm.eq_of_pairwise (fun a b _ _ hab hba => le_antisymm hba.1 hab.1)
    hsorted hpairwise ?_
  refine (perm_ext_iff_of_nodup (hsorted.imp And.right) (hpairwise.imp And.right)).mpr ?_
  exact fun op => mem_sortOperations.trans (hmem op)

end Sorting

end Osrd.InfraErrors
