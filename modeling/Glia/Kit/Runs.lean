import Mathlib.Data.List.Induction

/-! Runs of a guarded step function and the invariants they keep. -/
namespace Glia.Kit

inductive Run {S A : Type} (step : S → A → Option S) (ok : S → A → Prop) (s : S) : List A → S → Prop
  | nil : Run step ok s [] s
  | snoc {acts : List A} {t u : S} {a : A} : Run step ok s acts t → ok t a →
      step t a = some u → Run step ok s (acts ++ [a]) u

namespace Run
variable {S A : Type} {step : S → A → Option S} {ok : S → A → Prop} {s t : S} {acts : List A}

theorem inv (h : Run step ok s acts t) {I : S → Prop} (start : I s)
    (keep : ∀ t a u, I t → ok t a → step t a = some u → I u) : I t := by
  induction h with
  | nil => exact start
  | snoc _ allowed taken ih => exact keep _ _ _ ih allowed taken

theorem of_foldlM (allowed : ∀ a ∈ acts, ∀ t, ok t a) (taken : acts.foldlM step s = some t) :
    Run step ok s acts t := by
  induction acts using List.reverseRecOn generalizing t with
  | nil =>
    cases taken
    exact .nil
  | append_singleton acts a ih =>
    rw [List.foldlM_append, Option.bind_eq_bind, Option.bind_eq_some_iff] at taken
    obtain ⟨u, before, last⟩ := taken
    rw [List.foldlM_cons, Option.bind_eq_bind, Option.bind_eq_some_iff] at last
    obtain ⟨v, one, done⟩ := last
    cases done
    exact .snoc (ih (fun b mem => allowed b (List.mem_append_left _ mem)) before)
      (allowed a (List.mem_append_right _ List.mem_cons_self) u) one

end Run

end Glia.Kit
