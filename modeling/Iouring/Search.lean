-- A search looks at a list of places one after the other and stops at the
-- first one that holds what it looks for. The places it is meant for may be
-- other ones: it may pass over some of them, and look at foreign ones after
-- them. The rule here says what then has to hold for its answer to be right.
import Mathlib.Data.List.Basic

namespace search

variable {α : Type*}

/-- The answer of a search for `p` among the places `W`, of which those in `R`
are used up: a place that is found is one of the others, and when none is found
there is none. -/
def Right (W : List α) (R : α → Prop) (p : α → Bool) (found : Option α) : Prop :=
  (∀ x, found = some x → x ∈ W ∧ p x = true ∧ ¬ R x) ∧
    (found = none → ∀ x ∈ W, p x = true → R x)

/-- The search looks at `L` and then at `T`, and the places are `L` and `U`. Its
answer is right if the first match in `L` is not used up and, when `L` has no
match, `T` has none either and the matches in `U` are used up. -/
theorem right_iff {W L T U : List α} {R : α → Prop} {p : α → Bool}
    (hW : ∀ x, x ∈ W ↔ x ∈ L ∨ x ∈ U) (hT : ∀ x ∈ T, x ∉ U) :
    Right W R p ((L ++ T).find? p) ↔
      (∀ x, L.find? p = some x → ¬ R x) ∧
        (L.find? p = none → (∀ x ∈ T, ¬ p x = true) ∧ ∀ x ∈ U, p x = true → R x) := by
  rw [List.find?_append]
  cases hL : L.find? p with
  | some x =>
    have hx : x ∈ W := (hW x).mpr (Or.inl (List.mem_of_find?_eq_some hL))
    have hp : p x = true := List.find?_some hL
    simp [Right, hx, hp]
  | none =>
    have hL' : ∀ x ∈ L, ¬ p x = true := List.find?_eq_none.mp hL
    rw [Option.none_or]
    constructor
    · rintro ⟨hsome, hnone⟩
      have hTnone : T.find? p = none := by
        cases hf : T.find? p with
        | none => rfl
        | some x =>
          obtain ⟨hx, hp, -⟩ := hsome x hf
          rcases (hW x).mp hx with hx | hx
          · exact absurd hp (hL' x hx)
          · exact absurd hx (hT x (List.mem_of_find?_eq_some hf))
      refine ⟨by simp, fun _ => ⟨List.find?_eq_none.mp hTnone, ?_⟩⟩
      intro x hx hp
      exact hnone hTnone x ((hW x).mpr (Or.inr hx)) hp
    · rintro ⟨-, hrest⟩
      obtain ⟨hTn, hU⟩ := hrest rfl
      rw [List.find?_eq_none.mpr hTn]
      refine ⟨by simp, fun _ x hx hp => ?_⟩
      rcases (hW x).mp hx with hx | hx
      · exact absurd hp (hL' x hx)
      · exact hU x hx hp

end search
