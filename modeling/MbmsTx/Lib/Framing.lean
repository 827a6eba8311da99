import Mathlib.Data.List.Induction
import Mathlib.Algebra.Order.Group.Nat

/-!
# Framing

Items are sent as a stream and cut into frames at arbitrary places. The first piece of a frame may
go on with an item of the frame before, and its last piece may be completed by the next.
`wholeItems n items` are the items that end within the first `n` elements, which a receiver of the
first frames can deliver.

A receiver that misses frames must not join pieces of different items: `Lossy frames k out held`
says that it has not done so with the first `k` frames.
-/

namespace MbmsTx

open List

variable {α : Type*}

/-- Put elements before the first piece. -/
def joinFirst (part : List α) : List (List α) → List (List α)
  | [] => []
  | piece :: pieces => (part ++ piece) :: pieces

/-- Put elements behind the last piece. -/
def joinLast : List (List α) → List α → List (List α)
  | [], _ => []
  | [piece], rest => [piece ++ rest]
  | piece :: next :: pieces, rest => piece :: joinLast (next :: pieces) rest

/-- The items that end within the first `n` elements of the stream. -/
def wholeItems : ℕ → List (List α) → List (List α)
  | _, [] => []
  | n, item :: items => if item.length ≤ n then item :: wholeItems (n - item.length) items else []

variable (pieces : List (List α))

@[simp] theorem joinFirst_nil_left : joinFirst [] pieces = pieces := by
  cases pieces with
  | nil => rfl
  | cons piece pieces => rfl

@[simp] theorem joinFirst_nil_right (part : List α) : joinFirst part [] = [] := rfl

@[simp] theorem joinFirst_cons (part piece : List α) (pieces : List (List α)) :
    joinFirst part (piece :: pieces) = (part ++ piece) :: pieces := rfl

theorem joinFirst_append {part : List α} {pieces : List (List α)} (hne : pieces ≠ [])
    (more : List (List α)) : joinFirst part (pieces ++ more) = joinFirst part pieces ++ more := by
  cases pieces with
  | nil => exact absurd rfl hne
  | cons piece pieces => rfl

theorem exists_mem_joinFirst {part : List α} {pieces : List (List α)} {piece : List α}
    (h : piece ∈ pieces) : ∃ item ∈ joinFirst part pieces, piece.length ≤ item.length := by
  cases pieces with
  | nil => cases h
  | cons first pieces =>
    rcases mem_cons.mp h with rfl | h
    · simp
    · exact ⟨piece, mem_cons_of_mem _ h, le_rfl⟩

theorem joinFirst_concat (part : List α) (pieces : List (List α)) (last : List α) :
    joinFirst part (pieces ++ [last]) =
      joinFirst part pieces ++ [(if pieces = [] then part else []) ++ last] := by
  cases pieces with
  | nil => rfl
  | cons piece pieces => rfl

theorem joinLast_concat (piece rest : List α) :
    joinLast (pieces ++ [piece]) rest = pieces ++ [piece ++ rest] := by
  induction pieces with
  | nil => rfl
  | cons first pieces ih =>
    cases pieces with
    | nil => rfl
    | cons second pieces =>
      rw [cons_append, cons_append, joinLast, ← cons_append, ih]
      rfl

@[simp] theorem joinLast_nil_right : joinLast pieces [] = pieces := by
  rcases eq_nil_or_concat pieces with rfl | ⟨init, last, rfl⟩
  · rfl
  · rw [concat_eq_append, joinLast_concat, append_nil]

theorem wholeItems_append (items rest : List (List α)) {part : List α}
    (hpart : ∀ next ∈ rest.head?, part.length < next.length) :
    wholeItems (items.flatten.length + part.length) (items ++ rest) = items := by
  induction items with
  | nil =>
    cases rest with
    | nil => rfl
    | cons next rest =>
      have hlt := hpart next rfl
      rw [nil_append, wholeItems, if_neg]
      simpa using hlt
  | cons item items ih =>
    rw [cons_append, wholeItems, flatten_cons, length_append,
      if_pos (by omega), add_assoc, Nat.add_sub_cancel_left, ih]

/-! ## Frames -/

/-- A frame with the pieces `init` and `last`. The flags say whether its first piece goes on with an
item of the frame before, and whether its last piece is completed by the next. -/
structure Frame (α : Type*) where
  init : List (List α)
  last : List α
  notStart : Bool
  notEnd : Bool

namespace Frame

/-- The items that end in the frame, when those before hold `part` of the first one. -/
def completes (part : List α) (f : Frame α) : List (List α) :=
  joinFirst part (if f.notEnd then f.init else f.init ++ [f.last])

/-- What the frames up to this one hold of an unfinished item. -/
def leaves (part : List α) (f : Frame α) : List α :=
  if f.notEnd then (if f.init = [] then part else []) ++ f.last else []

theorem joinFirst_init_sublist (part : List α) (f : Frame α) :
    (joinFirst part f.init).Sublist (f.completes part) := by
  unfold completes
  split
  · simp
  · rw [joinFirst_concat]
    simp

/-- The elements in the frame. -/
def elements (f : Frame α) : List α := f.init.flatten ++ f.last

end Frame

/-- The complete items of the frames, and what they hold of the next one. -/
def unframe (frames : List (Frame α)) : List (List α) × List α :=
  frames.foldl (fun st f => (st.1 ++ f.completes st.2, f.leaves st.2)) ([], [])

variable {frames : List (Frame α)} {f : Frame α} {k : ℕ}

theorem unframe_concat (frames : List (Frame α)) (f : Frame α) : unframe (frames ++ [f]) =
      ((unframe frames).1 ++ f.completes (unframe frames).2, f.leaves (unframe frames).2) := by
  rw [unframe, foldl_append]
  rfl

theorem unframe_take_succ (hf : frames[k]? = some f) : unframe (frames.take (k + 1)) =
      ((unframe (frames.take k)).1 ++ f.completes (unframe (frames.take k)).2,
        f.leaves (unframe (frames.take k)).2) := by
  rw [take_add_one, hf, Option.toList_some, unframe_concat]

theorem unframe_prefix_append (frames more : List (Frame α)) :
    (unframe frames).1 <+: (unframe (frames ++ more)).1 := by
  induction more using reverseRecOn with
  | nil => simp
  | append_singleton more f ih =>
    rw [← append_assoc, unframe_concat]
    exact ih.trans (prefix_append _ _)

/-- The frames hold all elements of the items. -/
theorem flatten_unframe (frames : List (Frame α)) :
    (unframe frames).1.flatten ++ (unframe frames).2 = frames.flatMap Frame.elements := by
  induction frames using reverseRecOn with
  | nil => rfl
  | append_singleton frames f ih =>
    have hframe : ∀ part, (f.completes part).flatten ++ f.leaves part = part ++ f.elements := by
      intro part
      unfold Frame.completes Frame.leaves Frame.elements
      cases f.notEnd <;> cases f.init <;> simp
    rw [unframe_concat, flatten_append, append_assoc, hframe, ← append_assoc, ih, flatMap_append,
      flatMap_singleton]

theorem forall_getElem?_concat {β : Type*} {P : ℕ → β → Prop} {l : List β} {b : β}
    (h : ∀ k a, l[k]? = some a → P k a) (hb : P l.length b) :
    ∀ k a, (l ++ [b])[k]? = some a → P k a := by
  intro k a ha
  rcases lt_trichotomy k l.length with hk | rfl | hk
  · rw [List.getElem?_append_left hk] at ha
    exact h k a ha
  · rw [List.getElem?_concat_length, Option.some.injEq] at ha
    exact ha ▸ hb
  · rw [List.getElem?_eq_none (by simp; omega)] at ha
    cases ha

/-- The frame at a place of a stream: its pieces are not empty, its first flag says whether an item
is unfinished, and no item is longer than `bound`. -/
structure Frame.Fits (bound : ℕ) (part : List α) (f : Frame α) : Prop where
  init_ne : ∀ piece ∈ f.init, piece ≠ []
  last_ne : f.last ≠ []
  start : f.notStart = true ↔ part ≠ []
  completes_le : ∀ item ∈ f.completes part, item.length ≤ bound
  leaves_le : (f.leaves part).length ≤ bound

/-- Every frame fits to those before it. -/
def WellFramed (bound : ℕ) (frames : List (Frame α)) : Prop :=
  ∀ (k : ℕ) (f : Frame α), frames[k]? = some f → f.Fits bound (unframe (frames.take k)).2

theorem WellFramed.concat {bound : ℕ} (h : WellFramed bound frames)
    (hf : f.Fits bound (unframe frames).2) : WellFramed bound (frames ++ [f]) := by
  refine forall_getElem?_concat (fun k g hg => ?_) (by rwa [take_left])
  rw [take_append_of_le_length (List.getElem?_eq_some_iff.mp hg).1.le]
  exact h k g hg

/-- What `f` takes from the item that is being sent and those that wait: `current'` is the rest of
its last item. -/
structure Frame.Takes (current : Option (List α)) (queue : List (List α)) (f : Frame α)
    (current' : Option (List α)) (queue' : List (List α)) : Prop where
  todo_eq : current.toList ++ queue = f.init ++ (f.last ++ current'.getD []) :: queue'
  init_ne : ∀ piece ∈ f.init, piece ≠ []
  last_ne : f.last ≠ []
  rest_ne : ∀ rest, current' = some rest → rest ≠ []
  start : f.notStart = current.isSome
  notEnd : f.notEnd = current'.isSome

/-- Items sent as frames: the frames hold the first items, and `pending` is what is left of the item
being sent and the items after it. -/
structure Cut (bound : ℕ) (items pending : List (List α)) (frames : List (Frame α)) : Prop where
  items_eq : items = (unframe frames).1 ++ joinFirst (unframe frames).2 pending
  unfinished : (unframe frames).2 ≠ [] → pending ≠ []
  wellFramed : WellFramed bound frames
  length_le : ∀ item ∈ items, item.length ≤ bound

namespace Cut

variable {bound : ℕ} {items pending queue queue' : List (List α)}
  {current current' : Option (List α)}

theorem nil (bound : ℕ) : Cut bound [] [] ([] : List (Frame α)) :=
  ⟨rfl, absurd rfl, fun _ _ h => absurd h (by simp), fun _ h => absurd h (by simp)⟩

theorem append_item (h : Cut bound items pending frames) {item : List α}
    (hitem : item.length ≤ bound) : Cut bound (items ++ [item]) (pending ++ [item]) frames := by
  refine ⟨?_, fun _ => by simp, h.wellFramed,
    forall_mem_append.mpr ⟨h.length_le, forall_mem_singleton.mpr hitem⟩⟩
  rw [h.items_eq, append_assoc]
  by_cases hne : pending = []
  · have hnil : (unframe frames).2 = [] := not_not.mp (mt h.unfinished (not_not.mpr hne))
    rw [hnil, joinFirst_nil_left, joinFirst_nil_left]
  · rw [joinFirst_append hne]

theorem pending_le (h : Cut bound items pending frames) :
    ∀ piece ∈ pending, piece.length ≤ bound := by
  intro piece hpiece
  obtain ⟨item, hitem, hle⟩ := @exists_mem_joinFirst _ (unframe frames).2 _ _ hpiece
  exact hle.trans (h.length_le item (h.items_eq ▸ mem_append_right _ hitem))

/-- The next frame takes its pieces from what is left to be sent. -/
theorem frame (h : Cut bound items (current.toList ++ queue) frames)
    (hf : f.Takes current queue current' queue') (hstart : f.notStart ↔ (unframe frames).2 ≠ []) :
    Cut bound items (current'.toList ++ queue') (frames ++ [f]) := by
  set part := (unframe frames).2 with hpart
  have hitems : items = (unframe frames).1 ++ (joinFirst part f.init ++
      ((if f.init = [] then part else []) ++ (f.last ++ current'.getD [])) :: queue') := by
    refine h.items_eq.trans ?_
    rw [hf.todo_eq]
    cases f.init with
    | nil | cons piece init => rfl
  have hsplit : items =
      (unframe (frames ++ [f])).1 ++
        joinFirst (unframe (frames ++ [f])).2 (current'.toList ++ queue') := by
    rw [hitems, unframe_concat, ← hpart, Frame.completes, Frame.leaves, hf.notEnd]
    cases current' with
    | none => simp [joinFirst_concat]
    | some rest => simp
  refine ⟨hsplit, ?_, h.wellFramed.concat ⟨hf.init_ne, hf.last_ne, hstart, ?_, ?_⟩, h.length_le⟩
  · rw [unframe_concat, Frame.leaves, hf.notEnd]
    cases current' with
    | none | some rest => simp
  · intro item hitem
    apply h.length_le
    rw [hsplit, unframe_concat]
    exact mem_append_left _ (mem_append_right _ hitem)
  · -- what is left unfinished is the beginning of an item
    have hmem : (if f.init = [] then part else []) ++ (f.last ++ current'.getD []) ∈ items := by
      rw [hitems]
      simp
    have hle := h.length_le _ hmem
    rw [← hpart]
    unfold Frame.leaves
    split
    · simp at hle ⊢
      omega
    · simp

/-- What was left to be sent before the last frame. -/
theorem of_concat (h : Cut bound items pending (frames ++ [f]))
    (hne : ∀ piece ∈ pending, piece ≠ []) :
    ∃ pending', Cut bound items pending' frames ∧ ∀ piece ∈ pending', piece ≠ [] := by
  have hfit := h.wellFramed frames.length f List.getElem?_concat_length
  have hitems := h.items_eq
  have hunfinished := h.unfinished
  rw [unframe_concat, Frame.completes, Frame.leaves] at hitems hunfinished
  have hpending : ∀ piece ∈ if f.notEnd then joinFirst f.last pending else f.last :: pending,
      piece ≠ [] := by
    have hlast := hfit.last_ne
    cases pending <;> cases f.notEnd <;> simp_all
  refine ⟨f.init ++ if f.notEnd then joinFirst f.last pending else f.last :: pending,
    ⟨?_, fun hpart => ?_, fun k g hg => ?_, h.length_le⟩,
    forall_mem_append.mpr ⟨hfit.init_ne, hpending⟩⟩
  · rw [hitems]
    cases f.notEnd <;> cases f.init <;> cases pending <;> simp
  · cases hend : f.notEnd <;> cases hinit : f.init <;> simp
    rw [hend, hinit] at hunfinished
    cases pending with
    | nil => exact absurd rfl (hunfinished (by simp [hpart]))
    | cons => simp
  · have hlt := (List.getElem?_eq_some_iff.mp hg).1
    have hfits := h.wellFramed k g (by rwa [List.getElem?_append_left hlt])
    rwa [take_append_of_le_length hlt.le] at hfits

theorem wholeItems_eq (h : Cut bound items pending frames) (hne : ∀ piece ∈ pending, piece ≠ []) :
    wholeItems (frames.flatMap Frame.elements).length items = (unframe frames).1 := by
  rw [← flatten_unframe, length_append, h.items_eq]
  refine wholeItems_append _ _ fun next hnext => ?_
  cases pending with
  | nil => cases hnext
  | cons piece pending =>
    have hpos := length_pos_iff.mpr (hne piece (by simp))
    rw [joinFirst_cons, head?_cons, Option.mem_some_iff] at hnext
    rw [← hnext, length_append]
    omega

/-- The first frames hold the items that end within their elements. -/
theorem wholeItems_take (h : Cut bound items pending frames) (hne : ∀ piece ∈ pending, piece ≠ [])
    (k : ℕ) : wholeItems ((frames.take k).flatMap Frame.elements).length items =
      (unframe (frames.take k)).1 := by
  induction frames using reverseRecOn generalizing pending with
  | nil =>
    rw [take_nil]
    exact h.wholeItems_eq hne
  | append_singleton frames f ih =>
    rcases Nat.lt_or_ge frames.length k with hk | hk
    · rw [take_of_length_le (by rw [length_append]; exact hk)]
      exact h.wholeItems_eq hne
    · obtain ⟨pending', h', hne'⟩ := h.of_concat hne
      rw [take_append_of_le_length hk]
      exact ih h' hne'

end Cut

/-! ## Senders -/

/-- A sender with the item that is being sent and those that wait, behind the frames it sent. -/
structure Sending (bound : ℕ) (items : List (List α)) (current : Option (List α))
    (queue : List (List α)) (frames : List (Frame α)) : Prop where
  cut : Cut bound items (current.toList ++ queue) frames
  ne_nil : ∀ piece ∈ current.toList ++ queue, piece ≠ []
  unfinished : current.isSome = true ↔ (unframe frames).2 ≠ []

namespace Sending

variable {bound : ℕ} {items queue queue' : List (List α)} {current current' : Option (List α)}

theorem nil (bound : ℕ) : Sending bound [] none [] ([] : List (Frame α)) :=
  ⟨Cut.nil bound, by simp, by simp [unframe]⟩

variable (h : Sending bound items current queue frames)
include h

theorem append_item {item : List α} (hne : item ≠ []) (hle : item.length ≤ bound) :
    Sending bound (items ++ [item]) current (queue ++ [item]) frames := by
  refine ⟨?_, ?_, h.unfinished⟩
  · rw [← append_assoc]
    exact h.cut.append_item hle
  · rw [← append_assoc]
    exact forall_mem_append.mpr ⟨h.ne_nil, forall_mem_singleton.mpr hne⟩

theorem frame (hf : f.Takes current queue current' queue') :
    Sending bound items current' queue' (frames ++ [f]) := by
  refine ⟨h.cut.frame hf (hf.start ▸ h.unfinished), forall_mem_append.mpr ⟨?_, ?_⟩, ?_⟩
  · simpa using hf.rest_ne
  · exact fun piece hpiece => h.ne_nil piece (by rw [hf.todo_eq]; simp [hpiece])
  · rw [unframe_concat, Frame.leaves, hf.notEnd]
    cases current' <;> simp [hf.last_ne]

end Sending

/-- A frame that is filled with pieces of the items `todo`, before its flags are set: the lengths of
all pieces but the last, that of the last, the rest of the last item, and the items that wait. -/
structure Filling (todo pieces : List (List α)) (elements : List α) (lengths : List ℕ) (last : ℕ)
    (current : Option (List α)) (queue : List (List α)) : Prop where
  elements_eq : elements = pieces.flatten
  ne_nil : ∀ piece ∈ pieces, piece ≠ []
  lengths_eq : lengths = pieces.dropLast.map length
  last_eq : last = (pieces.getLastD []).length
  rest : ∀ rest, current = some rest → rest ≠ [] ∧ pieces ≠ []
  todo_eq : todo = joinLast pieces (current.getD []) ++ queue

namespace Filling

variable {todo pieces queue : List (List α)} {elements item last : List α} {lengths : List ℕ}
  {lastLength n : ℕ} {current current' : Option (List α)}

theorem nil (queue : List (List α)) : Filling queue [] [] [] 0 none queue :=
  ⟨rfl, by simp, rfl, rfl, by simp, rfl⟩

/-- The first `n` elements of an item are moved to the frame. -/
theorem move (helements : elements = pieces.flatten) (hne : ∀ piece ∈ pieces, piece ≠ [])
    (htodo : todo = pieces ++ item :: queue) (hpos : 0 < n) (hle : n ≤ item.length)
    (hcurrent : current' = if item.length = n then none else some (item.drop n)) :
    Filling todo (pieces ++ [item.take n]) (elements ++ item.take n) (pieces.map length) n current'
      queue := by
  have hlen : (item.take n).length = n := length_take_of_le hle
  refine ⟨by simp [helements], ?_, by rw [dropLast_concat], by rw [getLastD_concat, hlen], ?_, ?_⟩
  · refine forall_mem_append.mpr ⟨hne, forall_mem_singleton.mpr ?_⟩
    rwa [← length_pos_iff, hlen]
  · rintro rest rfl
    split at hcurrent
    · cases hcurrent
    · obtain rfl := Option.some.inj hcurrent
      refine ⟨?_, by simp⟩
      rw [← length_pos_iff, length_drop]
      omega
  · rw [htodo, hcurrent, joinLast_concat]
    split
    · next hall => simp [← hall]
    · simp

variable (h : Filling todo pieces elements lengths lastLength current queue)
include h

/-- The lengths of all pieces. -/
theorem lengths_last :
    (if 0 < lastLength then lengths ++ [lastLength] else lengths) = pieces.map length := by
  rw [h.last_eq, h.lengths_eq]
  rcases eq_nil_or_concat pieces with rfl | ⟨init, last, rfl⟩
  · rfl
  rw [concat_eq_append] at h ⊢
  have hpos := length_pos_iff.mpr (h.ne_nil last (by simp))
  simp [hpos]

theorem exists_takes {current₀ : Option (List α)} {queue₀ : List (List α)}
    (htodo : todo = current₀.toList ++ queue₀) (hne : pieces ≠ []) : ∃ f : Frame α,
      f.Takes current₀ queue₀ current queue ∧ f.elements = elements ∧ f.init.map length = lengths ∧
        pieces = f.init ++ [f.last] := by
  obtain ⟨init, last, rfl⟩ := (eq_nil_or_concat pieces).resolve_left hne
  rw [concat_eq_append] at h
  have htodo' := h.todo_eq
  rw [joinLast_concat, append_assoc, singleton_append, htodo] at htodo'
  refine ⟨⟨init, last, current₀.isSome, current.isSome⟩, ⟨htodo', ?_, ?_, ?_, rfl, rfl⟩, ?_, ?_,
    concat_eq_append⟩
  · exact fun piece hpiece => h.ne_nil piece (mem_append_left _ hpiece)
  · exact h.ne_nil last (by simp)
  · exact fun rest hrest => (h.rest rest hrest).1
  · simp [Frame.elements, h.elements_eq]
  · rw [h.lengths_eq, dropLast_concat]

end Filling

/-! ## Receivers that miss frames -/

/-- A receiver of some of the first `k` frames has delivered complete items, in order and each at
most once; it holds nothing or all of the item that is not complete. -/
structure Lossy (frames : List (Frame α)) (k : ℕ) (out : List (List α)) (held : List α) : Prop where
  out : out.Sublist (unframe (frames.take k)).1
  held : held = [] ∨ held = (unframe (frames.take k)).2

namespace Lossy

variable {out new : List (List α)} {held held' : List α}

section

variable (h : Lossy frames k out held)
include h

theorem lose : Lossy frames (k + 1) out [] :=
  ⟨h.out.trans (take_add_one (l := frames) ▸ unframe_prefix_append _ _).sublist, .inl rfl⟩

theorem drop : Lossy frames k out [] := ⟨h.out, .inl rfl⟩

theorem take (hf : frames[k]? = some f)
    (hnew : new.Sublist (f.completes (unframe (frames.take k)).2))
    (hheld : held' = [] ∨ held' = f.leaves (unframe (frames.take k)).2) :
    Lossy frames (k + 1) (out ++ new) held' := by
  constructor
  · rw [unframe_take_succ hf]
    exact h.out.append hnew
  · rw [unframe_take_succ hf]
    exact hheld

theorem append (hk : k ≤ frames.length) (more : List (Frame α)) :
    Lossy (frames ++ more) k out held := by
  have htake : (frames ++ more).take k = frames.take k := take_append_of_le_length hk
  constructor
  · rw [htake]
    exact h.out
  · rw [htake]
    exact h.held

theorem sublist {bound : ℕ} {items pending : List (List α)}
    (hcut : Cut bound items pending frames) : out.Sublist items := by
  have htake := unframe_prefix_append (frames.take k) (frames.drop k)
  rw [take_append_drop] at htake
  rw [hcut.items_eq]
  exact (h.out.trans htake.sublist).trans (sublist_append_left _ _)

end

end Lossy

end MbmsTx
