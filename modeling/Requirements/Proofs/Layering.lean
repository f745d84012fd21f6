import Mathlib.Data.List.Basic

/-! Layers that are taken in one behind the other. Where taking in is associative and a
layer that comes again adds nothing, it does not matter whether a layer has taken in some
of those behind it before. -/
namespace Requirements

structure Layering {α : Type} (take : α → α → α) (Fit : α → Prop) : Prop where
  fit : ∀ {own layer}, Fit own → Fit layer → Fit (take own layer)
  assoc : ∀ {own first second}, Fit first → Fit second →
    take (take own first) second = take own (take first second)
  once : ∀ (own) {layer}, Fit layer → take (take own layer) layer = take own layer
  again : ∀ (own) {first second}, Fit first → Fit second →
    take (take (take own first) second) first = take (take own first) second

namespace Layering

variable {α : Type} {take : α → α → α} {Fit : α → Prop}

/-- The layer holds nothing that is lacking. -/
def Covers (take : α → α → α) (own layer : α) : Prop := take own layer = own

theorem covers_take (laws : Layering take Fit) (own : α) {layer : α} (fits : Fit layer) :
    Covers take (take own layer) layer := laws.once own fits

/-- What is covered stays covered. -/
theorem covers_take_right (laws : Layering take Fit) {own layer more : α}
    (covers : Covers take own layer) (fits : Fit layer) (moreFits : Fit more) :
    Covers take (take own more) layer := by
  have again := laws.again own fits moreFits
  rwa [covers] at again

theorem covers_foldl_right (laws : Layering take Fit) {own layer : α} {more : List α}
    (covers : Covers take own layer) (fits : Fit layer) (moreFit : ∀ m ∈ more, Fit m) :
    Covers take (more.foldl take own) layer := by
  induction more generalizing own with
  | nil => exact covers
  | cons m rest ih =>
    exact ih (laws.covers_take_right covers fits (moreFit m (by simp)))
      fun other member => moreFit other (by simp [member])

theorem covers_foldl (laws : Layering take Fit) (own : α) {layers : List α}
    (layersFit : ∀ layer ∈ layers, Fit layer) {layer : α} (member : layer ∈ layers) :
    Covers take (layers.foldl take own) layer := by
  induction layers generalizing own with
  | nil => cases member
  | cons first rest ih =>
    have firstFits := layersFit first (by simp)
    have restFit : ∀ other ∈ rest, Fit other := fun other inRest => layersFit other (by simp [inRest])
    rw [List.foldl_cons]
    rcases List.mem_cons.mp member with rfl | member
    · exact laws.covers_foldl_right (laws.covers_take own firstFits) firstFits restFit
    · exact ih _ restFit member

theorem foldl_of_covers {own : α} {layers : List α} (covers : ∀ layer ∈ layers, Covers take own layer) :
    layers.foldl take own = own := by
  induction layers with
  | nil => rfl
  | cons layer rest ih =>
    rw [List.foldl_cons, covers layer (by simp)]
    exact ih fun other member => covers other (by simp [member])

/-- A layer that has taken in others brings them along. -/
theorem take_foldl (laws : Layering take Fit) (own : α) {layer : α} {more : List α}
    (fits : Fit layer) (moreFit : ∀ m ∈ more, Fit m) :
    take own (more.foldl take layer) = more.foldl take (take own layer) := by
  induction more generalizing layer with
  | nil => rfl
  | cons m rest ih =>
    have firstFits := moreFit m (by simp)
    rw [List.foldl_cons, ih (laws.fit fits firstFits) fun other member => moreFit other (by simp [member]),
      List.foldl_cons, laws.assoc fits firstFits]

/-- Each layer of the second list is one of the first that has taken in some of those right
behind it. -/
inductive Joined (take : α → α → α) : List α → List α → Prop
  | nil : Joined take [] []
  | cons {layer : α} {rest joined more : List α} (ahead : more <+: rest)
      (behind : Joined take rest joined) :
      Joined take (layer :: rest) (more.foldl take layer :: joined)

/-- Joined layers bring what they bring one by one, also when the first of them were taken
in before. -/
theorem foldl_joined (laws : Layering take Fit) {layers joined : List α}
    (join : Joined take layers joined) (layersFit : ∀ layer ∈ layers, Fit layer) (own : α)
    {ahead : List α} (isAhead : ahead <+: layers) :
    joined.foldl take (ahead.foldl take own) = layers.foldl take own := by
  induction join generalizing own ahead with
  | nil => rw [List.prefix_nil.mp isAhead]; rfl
  | @cons layer rest joined more moreAhead behind ih =>
    have fits := layersFit layer (by simp)
    have restFit : ∀ other ∈ rest, Fit other := fun other member => layersFit other (by simp [member])
    have moreFit : ∀ other ∈ more, Fit other := fun other member => restFit other (moreAhead.subset member)
    rw [List.foldl_cons, List.foldl_cons, laws.take_foldl _ fits moreFit]
    cases ahead with
    | nil => exact ih restFit (take own layer) moreAhead
    | cons first ahead =>
      obtain ⟨rfl, restAhead⟩ := List.cons_prefix_cons.mp isAhead
      have aheadFit : ∀ other ∈ ahead, Fit other :=
        fun other member => restFit other (restAhead.subset member)
      have covered : Covers take ((first :: ahead).foldl take own) first :=
        laws.covers_foldl own (by simpa using ⟨fits, aheadFit⟩) (by simp)
      have ofSame : ∀ other ∈ ahead, Covers take (ahead.foldl take (take own first)) other :=
        fun other member => laws.covers_foldl _ aheadFit member
      rw [covered, List.foldl_cons]
      -- Of two beginnings of the same layers, the longer one decides what is there by now.
      rcases List.prefix_or_prefix_of_prefix moreAhead restAhead with shorter | ⟨further, longer⟩
      · rw [foldl_of_covers fun other member => ofSame other (shorter.subset member)]
        exact ih restFit _ restAhead
      · have whole : further.foldl take (ahead.foldl take (take own first)) =
            more.foldl take (take own first) := by rw [← List.foldl_append, longer]
        rw [← longer, List.foldl_append, foldl_of_covers ofSame, whole]
        exact ih restFit _ moreAhead

end Layering
end Requirements
