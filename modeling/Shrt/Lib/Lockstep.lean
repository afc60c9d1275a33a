import Shrt.Lib.Transition

/-!
# Two machines on the same inputs

Two machines that answer every input are driven by the same inputs. When a relation between their
states is kept by every input on which a condition holds, and the answers agree exactly on such
inputs, then all answers agree exactly when the condition holds all along (`outputs_eq_iff_meets`).

Inputs carry a time, and the relation may depend on the time so far.
-/

namespace Lockstep

open Transition

variable {σ τ α β θ : Type*}

/-- The answers of a machine. -/
def outputs (f : σ → α → β × σ) : σ → List α → List β
  | _, [] => []
  | s, a :: as => (f s a).1 :: outputs f (f s a).2 as

/-- The state of a machine afterwards. -/
def after (f : σ → α → β × σ) (s : σ) (as : List α) : σ := as.foldl (fun s a ↦ (f s a).2) s

theorem after_nil (f : σ → α → β × σ) (s : σ) : after f s [] = s := rfl

theorem after_cons (f : σ → α → β × σ) (s : σ) (a : α) (as : List α) :
    after f s (a :: as) = after f (f s a).2 as := rfl

theorem outputs_concat (f : σ → α → β × σ) (s : σ) (as : List α) (a : α) :
    outputs f s (as ++ [a]) = outputs f s as ++ [(f (after f s as) a).1] := by
  induction as generalizing s with
  | nil => rfl
  | cons b as ih =>
    rw [List.cons_append, outputs, ih, outputs, List.cons_append, after_cons]

theorem after_concat (f : σ → α → β × σ) (s : σ) (as : List α) (a : α) :
    after f s (as ++ [a]) = (f (after f s as) a).2 := by
  rw [after, List.foldl_append]
  rfl

theorem length_outputs (f : σ → α → β × σ) (s : σ) (as : List α) :
    (outputs f s as).length = as.length := by
  induction as generalizing s with
  | nil => rfl
  | cons a as ih => rw [outputs, List.length_cons, List.length_cons, ih]

theorem run_eq_after (f : σ → α → β × σ) (s : σ) (as : List α) :
    run (fun s a ↦ some (f s a).2) s as = some (after f s as) := by
  induction as generalizing s with
  | nil => rfl
  | cons a as ih => exact ih _

/-- **The exactness rule** for a machine that answers every input. A condition under which the
inputs keep a property of those so far, and without which what comes next betrays it, is met all
along exactly when every beginning is good. -/
theorem forall_prefix_iff_meets {f : σ → α → β × σ} {s : σ} {P Q : List α → Prop}
    {ok : σ → α → Prop} {as : List α} (hgood : ∀ pre, P pre → Q pre)
    (hexact : ∀ pre a, pre ++ [a] <+: as → P pre → Q (pre ++ [a]) → ok (after f s pre) a)
    (hstep : ∀ pre a, pre ++ [a] <+: as → P pre → ok (after f s pre) a → P (pre ++ [a]))
    (h₀ : P []) :
    (∀ pre, pre <+: as → Q pre) ↔ Meets (fun s a ↦ some (f s a).2) ok s as := by
  -- The property itself is carried along with the condition.
  suffices h : ((∀ pre, pre <+: as → Q pre) ↔ Meets (fun s a ↦ some (f s a).2) ok s as) ∧
      (Meets (fun s a ↦ some (f s a).2) ok s as → P as) from h.1
  induction as using List.reverseRecOn with
  | nil =>
    refine ⟨⟨fun _ ↦ trivial, fun _ pre hpre ↦ ?_⟩, fun _ ↦ h₀⟩
    rw [List.prefix_nil.mp hpre]
    exact hgood [] h₀
  | append_singleton as a ih =>
    have hlater {pre b} (h : pre ++ [b] <+: as) : pre ++ [b] <+: as ++ [a] :=
      h.trans (List.prefix_append _ _)
    obtain ⟨hiff, hkeeps⟩ := ih (fun pre b h ↦ hexact pre b (hlater h))
      (fun pre b h ↦ hstep pre b (hlater h))
    have hsplit : Meets (fun s a ↦ some (f s a).2) ok s (as ++ [a]) ↔
        Meets (fun s a ↦ some (f s a).2) ok s as ∧ ok (after f s as) a := by
      rw [meets_append, run_eq_after]
      simp [Meets]
    rw [hsplit]
    have hnext (h : Meets (fun s a ↦ some (f s a).2) ok s as ∧ ok (after f s as) a) :
        P (as ++ [a]) := hstep as a List.prefix_rfl (hkeeps h.1) h.2
    refine ⟨⟨fun h ↦ ?_, fun h pre hpre ↦ ?_⟩, hnext⟩
    · have has := hiff.mp fun pre hpre ↦ h pre (hpre.trans (List.prefix_append _ _))
      exact ⟨has, hexact as a List.prefix_rfl (hkeeps has) (h _ List.prefix_rfl)⟩
    · rcases List.prefix_concat_iff.mp hpre with rfl | hpre
      · exact hgood _ (hnext h)
      · exact hiff.mpr h.1 pre hpre

/-- The two machines side by side. -/
def both (f : σ → α → β × σ) (g : τ → α → β × τ) (p : σ × τ) (a : α) : Option (σ × τ) :=
  some ((f p.1 a).2, (g p.2 a).2)

variable {f : σ → α → β × σ} {g : τ → α → β × τ} {ok q : σ × τ → α → Prop}

/-- **The comparison rule.** -/
theorem outputs_eq_iff_meets {Rel : θ → σ → τ → Prop} (le : θ → θ → Prop) (time : α → θ)
    (hstep : ∀ t₀ s t a, Rel t₀ s t → le t₀ (time a) → q (s, t) a →
      ((f s a).1 = (g t a).1 ↔ ok (s, t) a) ∧
      (ok (s, t) a → Rel (time a) (f s a).2 (g t a).2))
    {t₀ : θ} {s : σ} {t : τ} {as : List α} (h₀ : Rel t₀ s t)
    (htimes : (t₀ :: as.map time).IsChain le) (has : Meets (both f g) q (s, t) as) :
    outputs f s as = outputs g t as ↔ Meets (both f g) ok (s, t) as := by
  induction as generalizing t₀ s t with
  | nil => exact ⟨fun _ ↦ trivial, fun _ ↦ rfl⟩
  | cons a as ih =>
    rw [List.map_cons, List.isChain_cons_cons] at htimes
    obtain ⟨hsame, hkeeps⟩ := hstep t₀ s t a h₀ htimes.1 has.1
    rw [outputs, outputs, List.cons.injEq, hsame]
    constructor
    · rintro ⟨hok, hrest⟩
      refine ⟨hok, fun p hp ↦ ?_⟩
      rw [← Option.some.inj hp]
      exact (ih (hkeeps hok) htimes.2 (has.2 _ rfl)).mp hrest
    · rintro ⟨hok, hrest⟩
      exact ⟨hok, (ih (hkeeps hok) htimes.2 (has.2 _ rfl)).mpr (hrest _ rfl)⟩

/-- The same, for a relation that does not depend on the time. -/
theorem outputs_eq_iff_meets_of_timeless {Rel : σ → τ → Prop}
    (hstep : ∀ s t a, Rel s t → q (s, t) a →
      ((f s a).1 = (g t a).1 ↔ ok (s, t) a) ∧ (ok (s, t) a → Rel (f s a).2 (g t a).2))
    {s : σ} {t : τ} {as : List α} (h₀ : Rel s t) (has : Meets (both f g) q (s, t) as) :
    outputs f s as = outputs g t as ↔ Meets (both f g) ok (s, t) as := by
  have htimes : (() :: as.map fun _ ↦ ()).IsChain (fun _ _ ↦ True) :=
    (List.pairwise_of_forall fun _ _ ↦ trivial).isChain
  exact outputs_eq_iff_meets (fun _ _ ↦ True) (fun _ ↦ ()) (fun _ s t a h _ hq ↦ hstep s t a h hq) h₀
    htimes has

end Lockstep
