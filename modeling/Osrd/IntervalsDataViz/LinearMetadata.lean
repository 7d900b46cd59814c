import Mathlib.Tactic.Linarith

/-! Linear metadata (`front/src/common/IntervalsDataViz/data.ts`): the values along a line, as items that
    follow each other. Positions are exact numbers; a call that throws gives the text of its error. -/

namespace Osrd.IntervalsDataViz

open List

/-- An interval of the line with its other fields. -/
structure LinearMetadataItem (T : Type) where
  begin : ℚ
  endAt : ℚ
  data : T
deriving DecidableEq

variable {T : Type} {a b c : ℚ} {x : LinearMetadataItem T} {l l' : List (LinearMetadataItem T)}

/-- `last(linearMetadata)?.end || 0` -/
def lastEnd (l : List (LinearMetadataItem T)) : ℚ := (l.getLast?.map (·.endAt)).getD 0

/-- The items follow each other from `a` to `b` without a gap, and each has a positive width. -/
def Tiles : ℚ → List (LinearMetadataItem T) → ℚ → Prop
  | a, [], b => a = b
  | a, x :: xs, b => x.begin = a ∧ x.begin < x.endAt ∧ Tiles x.endAt xs b

namespace Tiles

theorem le : ∀ {l : List (LinearMetadataItem T)} {a : ℚ}, Tiles a l b → a ≤ b
  | [], _, h => le_of_eq h
  | _ :: _, _, ⟨rfl, hlt, h⟩ => hlt.le.trans h.le

theorem append_iff : ∀ {l : List (LinearMetadataItem T)} {a : ℚ},
    Tiles a (l ++ l') b ↔ ∃ m, Tiles a l m ∧ Tiles m l' b
  | [], a => by simp [Tiles]
  | x :: l, a => by simp [Tiles, append_iff, and_assoc]

theorem of_mem : ∀ {l : List (LinearMetadataItem T)} {a : ℚ}, Tiles a l b → x ∈ l →
    a ≤ x.begin ∧ x.begin < x.endAt ∧ x.endAt ≤ b
  | y :: l, _, ⟨rfl, hlt, h⟩, hx => by
    rcases mem_cons.mp hx with rfl | hx
    · exact ⟨le_rfl, hlt, h.le⟩
    · obtain ⟨hle, hx⟩ := h.of_mem hx
      exact ⟨hlt.le.trans hle, hx⟩

theorem lastEnd_eq (h : Tiles a l b) (hne : l ≠ []) : lastEnd l = b := by
  obtain ⟨l, x, rfl⟩ := (eq_nil_or_concat l).resolve_left hne
  rw [concat_eq_append] at h ⊢
  obtain ⟨m, -, -, -, h⟩ := append_iff.mp h
  simpa [lastEnd, Tiles] using h

end Tiles

/-! ### Splitting at a distance -/

/-- An item with the distance between its bounds, or on one of them, is cut there. -/
def splitItem (distance : ℚ) (item : LinearMetadataItem T) : List (LinearMetadataItem T) :=
  if item.begin ≤ distance ∧ distance ≤ item.endAt then
    [{ item with endAt := distance }, { item with begin := distance }]
  else [item]

def splitAt (linearMetadata : List (LinearMetadataItem T)) (distance : ℚ) :
    Except String (List (LinearMetadataItem T)) :=
  if linearMetadata.length < 1 then .error "linear metadata is empty"
  else if lastEnd linearMetadata ≤ distance ∨ distance ≤ 0 then .error "split point is outside the geometry"
  else .ok (linearMetadata.flatMap (splitItem distance))

/-- The value at a position. -/
def HasValue (l : List (LinearMetadataItem T)) (p : ℚ) (v : T) : Prop :=
  ∃ x ∈ l, x.begin ≤ p ∧ p < x.endAt ∧ x.data = v

/-- One more segment, or the same ones if there was a bound, with the values that were there. -/
structure SplitsAt (l : List (LinearMetadataItem T)) (distance b : ℚ) (r : List (LinearMetadataItem T)) :
    Prop where
  tiles : Tiles 0 r b
  segments : r.length = l.length + 1 ∨ r = l ∧ ∃ x ∈ l, x.begin = distance
  values : ∀ p v, HasValue r p v ↔ HasValue l p v

theorem hasValue_cons {p : ℚ} {v : T} :
    HasValue (x :: l) p v ↔ (x.begin ≤ p ∧ p < x.endAt ∧ x.data = v) ∨ HasValue l p v := by
  simp [HasValue]

variable {distance : ℚ}

/-- The items after the distance are kept. -/
theorem splitItem_after : ∀ {l : List (LinearMetadataItem T)} {a : ℚ}, Tiles a l b → distance < a →
    l.flatMap (splitItem distance) = l
  | [], _, _, _ => rfl
  | x :: l, _, ⟨rfl, hwidth, h⟩, hlt => by
    rw [flatMap_cons, splitItem_after h (hlt.trans hwidth), splitItem, if_neg fun hin =>
      hin.1.not_gt hlt]
    rfl

/-- One item is cut when no item starts at the distance. -/
theorem splitItem_inside : ∀ {l : List (LinearMetadataItem T)} {a : ℚ}, Tiles a l b → a < distance →
    distance < b → (∀ x ∈ l, x.begin ≠ distance) → Tiles a (l.flatMap (splitItem distance)) b ∧
      (l.flatMap (splitItem distance)).length = l.length + 1 ∧
      ∀ p v, HasValue (l.flatMap (splitItem distance)) p v ↔ HasValue l p v
  | [], _, h, hpos, hlt, _ => absurd h (hpos.trans hlt).ne
  | x :: l, _, ⟨rfl, hwidth, h⟩, hpos, hlt, hbound => by
    rcases lt_or_ge distance x.endAt with hin | hout
    · rw [flatMap_cons, splitItem_after h hin, splitItem, if_pos ⟨hpos.le, hin.le⟩]
      refine ⟨⟨rfl, hpos, rfl, hin, h⟩, by simp, fun p v => ?_⟩
      simp only [cons_append, nil_append, hasValue_cons, ← or_assoc]
      refine or_congr_left ?_
      rcases lt_or_ge p distance with hp | hp
      · simp [hp, hp.not_ge, hp.trans hin]
      · simp [hp, hp.not_gt, hpos.le.trans hp]
    · -- the distance is behind the item, and not at the bound that the next one starts at
      have hgt : x.endAt < distance := by
        cases l with
        | nil => exact absurd hlt (h ▸ hout).not_gt
        | cons y l => exact lt_of_le_of_ne hout fun heq => hbound y (by simp) (h.1.trans heq)
      obtain ⟨htiles, hlength, hvalues⟩ := splitItem_inside h hgt hlt fun y hy => hbound y (by simp [hy])
      rw [flatMap_cons, splitItem, if_neg fun hin => hin.2.not_gt hgt]
      refine ⟨⟨rfl, hwidth, htiles⟩, by simp [hlength], fun p v => ?_⟩
      simp only [cons_append, nil_append, hasValue_cons, hvalues]

/-- The split is right iff no segment starts at the distance: there the two segments around the bound are
    both cut, and two segments without width are added. -/
theorem splitAt_splitsAt_iff (h : Tiles 0 l b) (hpos : 0 < distance) (hlt : distance < b) :
    (∃ r, splitAt l distance = .ok r ∧ SplitsAt l distance b r) ↔ ∀ x ∈ l, x.begin ≠ distance := by
  have hne : l ≠ [] := by
    rintro rfl
    exact (hpos.trans hlt).ne h
  have hok : splitAt l distance = .ok (l.flatMap (splitItem distance)) := by
    rw [splitAt, if_neg (by simpa using hne), h.lastEnd_eq hne, if_neg (by simp [hpos, hlt])]
  constructor
  · rintro ⟨r, hr, hsplits⟩ x hx rfl
    obtain rfl := Except.ok.inj (hok.symm.trans hr)
    have hcut : { x with endAt := x.begin } ∈ l.flatMap (splitItem x.begin) := by
      refine mem_flatMap.mpr ⟨x, hx, ?_⟩
      rw [splitItem, if_pos ⟨le_rfl, (h.of_mem hx).2.1.le⟩]
      exact mem_cons_self
    exact (hsplits.tiles.of_mem hcut).2.1.ne rfl
  · intro hbound
    obtain ⟨htiles, hlength, hvalues⟩ := splitItem_inside h hpos hlt hbound
    exact ⟨_, hok, htiles, .inl hlength, hvalues⟩

theorem splitAt_splitsAt_iff_twoSegments :
    ∃ r, splitAt [⟨0, 10, "a"⟩, ⟨10, 20, "b"⟩] 15 = .ok r ∧ SplitsAt [⟨0, 10, "a"⟩, ⟨10, 20, "b"⟩] 15 20 r :=
  (splitAt_splitsAt_iff (by norm_num [Tiles]) (by norm_num) (by norm_num)).mpr (by norm_num)

/-- Split at the bound 10, the list has two segments without width. -/
theorem splitAt_bound :
    splitAt [⟨0, 10, "a"⟩, ⟨10, 20, "b"⟩] 10 =
      .ok [⟨0, 10, "a"⟩, ⟨10, 10, "a"⟩, ⟨10, 10, "b"⟩, ⟨10, 20, "b"⟩] := by
  norm_num [splitAt, lastEnd, splitItem]

end Osrd.IntervalsDataViz
