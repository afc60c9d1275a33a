import Shrt.Lib.Interleave

/-!
# Programs in an environment

What an action does may depend on decisions of the environment, which are taken anew at every
action. `Ensures` says how a program ends whatever these are. It follows the program action by
action, so that sequences of programs are followed one after the other (`ensures_bind`). In a run
the decisions are listed (`execWith`).
-/

namespace Interleave.Prog

variable {A : Type} {R : A → Type} {β γ σ E : Type} {f : E → (a : A) → σ → R a × σ}
  {p : Prog A R β} {P Q : β → σ → Prop} {s : σ}

/-- Whatever the environment decides, a program ends with such a result in such a state. -/
def Ensures (f : E → (a : A) → σ → R a × σ) : Prog A R β → (β → σ → Prop) → σ → Prop
  | ret b, Q, s => Q b s
  | act a k, Q, s => ∀ e, (k (f e a s).1).Ensures f Q (f e a s).2

theorem Ensures.mono (h : p.Ensures f P s) (himp : ∀ b s, P b s → Q b s) : p.Ensures f Q s := by
  induction p generalizing s with
  | ret b => exact himp b s h
  | act a k ih => exact fun e ↦ ih _ (h e)

/-- To follow a sequence, follow the first program up to where the second begins. -/
theorem ensures_bind {g : β → Prog A R γ} {Q : γ → σ → Prop} :
    (p >>= g).Ensures f Q s ↔ p.Ensures f (fun b s ↦ (g b).Ensures f Q s) s := by
  induction p generalizing s with
  | ret b => exact Iff.rfl
  | act a k ih => exact forall_congr' fun e ↦ ih _

theorem Ensures.bind {g : β → Prog A R γ} {Q : γ → σ → Prop} (hp : p.Ensures f P s)
    (hg : ∀ b s, P b s → (g b).Ensures f Q s) : (p >>= g).Ensures f Q s :=
  ensures_bind.mpr (hp.mono hg)

/-- Run a program with the listed decisions, and the default one after them. -/
def execWith [Inhabited E] (f : E → (a : A) → σ → R a × σ) : Prog A R β → List E → σ → β × σ
  | ret b, _, s => (b, s)
  | act a k, es, s =>
    execWith f (k (f (es.headD default) a s).1) es.tail (f (es.headD default) a s).2

theorem Ensures.execWith [Inhabited E] (h : p.Ensures f Q s) (es : List E) :
    Q (p.execWith f es s).1 (p.execWith f es s).2 := by
  induction p generalizing s es with
  | ret b => exact h
  | act a k ih => exact ih _ (h _) es.tail

/-- A result that is computed from that of a program. -/
theorem execWith_bind_ret [Inhabited E] (p : Prog A R β) (g : β → γ) (es : List E) (s : σ) :
    (p >>= fun b ↦ ret (g b)).execWith f es s
      = (g (p.execWith f es s).1, (p.execWith f es s).2) := by
  induction p generalizing s es with
  | ret b => rfl
  | act a k ih => exact ih _ es.tail _

end Interleave.Prog
