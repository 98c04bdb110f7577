import Mathlib.Data.List.Basic
import Mathlib.Order.Basic

/-!
# Framed streams

A stream that a writer fills with frames, one after another (`IsStream`): the
frames written in full, the frame being written with the number of bytes written
of it, and what the reader sees. The rules follow the writer (`start`, `write`,
`finish`); `isPrefix_images` is what the reader can rely on at any time. A prefix of a
sequence of images is cut into whole frames and a part (`exists_frames_of_prefix`). In a
stream with other bytes the frames that a reader finds are pieces of it (`Pieces`).
-/

universe u v

namespace Framing

variable {ι : Type u} {β : Type v}

/-- The frames of a stream: the ones written in full and the one being written. -/
def frames (sent : List ι) (part : Option (ι × Nat)) : List ι :=
  sent ++ (part.map Prod.fst).toList

@[simp] theorem frames_none (sent : List ι) : frames sent none = sent := List.append_nil sent

@[simp] theorem frames_some (sent : List ι) (e : ι) (n : Nat) :
    frames sent (some (e, n)) = sent ++ [e] := rfl

/-- What has been written of the frame being written. -/
def written (image : ι → List β) : Option (ι × Nat) → List β
  | none => []
  | some (e, n) => (image e).take n

/-- The stream `out` consists of the images of `sent` and of the first bytes of
the frame being written; the frames are in strictly increasing order. -/
structure IsStream [LT ι] (image : ι → List β) (sent : List ι) (part : Option (ι × Nat))
    (out : List β) : Prop where
  ordered : (frames sent part).Pairwise (· < ·)
  out_eq : out = sent.flatMap image ++ written image part

namespace IsStream

variable [LT ι] {image image' : ι → List β} {sent : List ι} {part : Option (ι × Nat)}
  {out bs : List β} {e : ι} {k : Nat}

theorem nil : IsStream image [] none [] := ⟨List.Pairwise.nil, rfl⟩

theorem start (h : IsStream image sent none out) (he : ∀ j ∈ sent, j < e) :
    IsStream image sent (some (e, 0)) out where
  ordered := by
    have hsent : sent.Pairwise (· < ·) := by simpa using h.ordered
    refine List.pairwise_append.mpr ⟨hsent, List.pairwise_singleton _ _, fun j hj e' he' => ?_⟩
    rw [List.mem_singleton.mp he']
    exact he j hj
  out_eq := h.out_eq

theorem write (h : IsStream image sent (some (e, k)) out) (hbs : bs <+: (image e).drop k) :
    IsStream image sent (some (e, k + bs.length)) (out ++ bs) where
  ordered := h.ordered
  out_eq := by
    have htake : (image e).take (k + bs.length) = (image e).take k ++ bs := by
      rw [List.take_add, ← List.prefix_iff_eq_take.mp hbs]
    simp only [written, htake, h.out_eq, List.append_assoc]

theorem finish (h : IsStream image sent (some (e, k)) out) (hk : k = (image e).length) :
    IsStream image (sent ++ [e]) none out where
  ordered := by simpa using h.ordered
  out_eq := by
    rw [h.out_eq, List.flatMap_append, List.append_assoc]
    simp [written, hk]

theorem congr (h : IsStream image sent part out)
    (himage : ∀ e ∈ frames sent part, image' e = image e) : IsStream image' sent part out where
  ordered := h.ordered
  out_eq := by
    have hsent : sent.flatMap image' = sent.flatMap image :=
      List.flatMap_congr fun e he => himage e (List.mem_append_left _ he)
    have hpart : written image' part = written image part := by
      cases part with
      | none => rfl
      | some p =>
        have hp := himage p.1 (List.mem_append_right _ (by simp))
        simp only [written, hp]
    rw [h.out_eq, hsent, hpart]

/-- Between two frames the stream consists of whole images. -/
theorem out_eq_images (h : IsStream image sent none out) :
    out = (frames sent none).flatMap image := by
  simpa [written] using h.out_eq

/-- **A framed stream** is a prefix of the images of its frames. -/
theorem isPrefix_images (h : IsStream image sent part out) :
    out <+: (frames sent part).flatMap image := by
  cases part with
  | none =>
    exact ⟨[], (List.append_nil out).trans h.out_eq_images⟩
  | some p =>
    rw [h.out_eq, frames_some, List.flatMap_append, List.prefix_append_right_inj]
    simpa [written] using List.take_prefix p.2 (image p.1)

end IsStream

/-! ## Frames in a stream -/

/-- The pieces stand in a stream one behind another, each in one piece, with any bytes before,
between and behind them. -/
inductive Pieces : List (List β) → List β → Prop
  | nil (s : List β) : Pieces [] s
  | cons {ps : List (List β)} {s : List β} (skipped p : List β) (h : Pieces ps s) :
      Pieces (p :: ps) (skipped ++ p ++ s)

namespace Pieces

variable {ps qs : List (List β)} {s : List β}

theorem skip (h : Pieces ps s) (skipped : List β) : Pieces ps (skipped ++ s) := by
  cases h with
  | nil => exact .nil _
  | cons before p h =>
    rw [← List.append_assoc, ← List.append_assoc]
    exact .cons (skipped ++ before) p h

/-- Fewer pieces. -/
theorem sublist (h : Pieces ps s) (hsub : qs.Sublist ps) : Pieces qs s := by
  induction h generalizing qs with
  | nil s =>
    rw [List.sublist_nil.mp hsub]
    exact .nil s
  | cons skipped p h ih =>
    cases hsub with
    | cons _ hsub => exact (ih hsub).skip (skipped ++ p)
    | cons_cons _ hsub => exact .cons skipped p (ih hsub)

end Pieces

/-- Some of the items of several sources, in order, are some of the items of each. -/
theorem exists_parts {κ : Type v} {f : κ → List ι} {xs : List κ} {ys : List ι}
    (h : ys.Sublist (xs.flatMap f)) :
    ∃ parts, List.Forall₂ (fun x part => part.Sublist (f x)) xs parts ∧ ys = parts.flatten := by
  induction xs generalizing ys with
  | nil => exact ⟨[], .nil, List.sublist_nil.mp h⟩
  | cons x xs ih =>
    rw [List.flatMap_cons] at h
    obtain ⟨part, rest, rfl, hpart, hrest⟩ := List.sublist_append_iff.mp h
    obtain ⟨parts, hparts, rfl⟩ := ih hrest
    exact ⟨part :: parts, .cons hpart hparts, rfl⟩

/-! ## Cutting a stream into frames -/

/-- `part` is less than the first frame of `rest`, or empty if there is none. -/
def IsPart (image : ι → List β) (rest : List ι) (part : List β) : Prop :=
  part = [] ∨ ∃ e ∈ rest.head?, part <+: image e ∧ part.length < (image e).length

/-- **A prefix of a sequence of images** consists of whole images and a part of the next one. -/
theorem exists_frames_of_prefix {image : ι → List β} {es : List ι} {s : List β}
    (h : s <+: es.flatMap image) :
    ∃ done rest part, es = done ++ rest ∧ s = done.flatMap image ++ part ∧
      IsPart image rest part := by
  induction es generalizing s with
  | nil => exact ⟨[], [], [], rfl, by simpa using h, .inl rfl⟩
  | cons e es ih =>
    rw [List.flatMap_cons] at h
    by_cases hlen : (image e).length ≤ s.length
    · obtain ⟨s, rfl⟩ := List.prefix_of_prefix_length_le (List.prefix_append _ _) h hlen
      rw [List.prefix_append_right_inj] at h
      obtain ⟨done, rest, part, rfl, rfl, hpart⟩ := ih h
      exact ⟨e :: done, rest, part, rfl, by simp, hpart⟩
    · have hlt := Nat.lt_of_not_le hlen
      exact ⟨[], e :: es, s, rfl, rfl, .inr ⟨e, rfl,
        List.prefix_of_prefix_length_le h (List.prefix_append _ _) (Nat.le_of_lt hlt), hlt⟩⟩

end Framing
