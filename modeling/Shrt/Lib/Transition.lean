import Mathlib

/-!
# Runs of a labelled transition system

A system is a step function that may refuse a label. A run feeds it a list of labels and is
undefined as soon as one is refused.

An invariant is proved once for a step and then holds along every run (`run_invariant`). When the
step lemma needs a side condition on the label and the state it is taken in, the condition is asked
of every step of the run by `Meets`. Quantities that the system itself does not keep, such as the
number of steps of one kind, ride along as a ghost component (`withGhost`).
-/

namespace Transition

variable {σ α γ : Type*}

/-- Feed a list of labels to the system. -/
def run (step : σ → α → Option σ) : σ → List α → Option σ
  | s, [] => some s
  | s, a :: as => (step s a).bind fun s' ↦ run step s' as

/-- Every step of the run meets the condition in the state it is taken in. -/
def Meets (step : σ → α → Option σ) (ok : σ → α → Prop) : σ → List α → Prop
  | _, [] => True
  | s, a :: as => ok s a ∧ ∀ s', step s a = some s' → Meets step ok s' as

variable {step : σ → α → Option σ} {ok : σ → α → Prop} {P : σ → Prop}

@[simp] theorem run_nil (s : σ) : run step s [] = some s := rfl

theorem run_cons_eq_some {s t : σ} {a : α} {as : List α} :
    run step s (a :: as) = some t ↔ ∃ s', step s a = some s' ∧ run step s' as = some t := by
  rw [run, Option.bind_eq_some_iff]

theorem run_append_eq_some {s t : σ} {as bs : List α} :
    run step s (as ++ bs) = some t ↔ ∃ u, run step s as = some u ∧ run step u bs = some t := by
  induction as generalizing s with
  | nil => simp
  | cons a as ih =>
    rw [List.cons_append, run_cons_eq_some]
    constructor
    · rintro ⟨s', hs, hr⟩
      obtain ⟨u, hu, ht⟩ := ih.mp hr
      exact ⟨u, run_cons_eq_some.mpr ⟨s', hs, hu⟩, ht⟩
    · rintro ⟨u, hu, ht⟩
      obtain ⟨s', hs, hr⟩ := run_cons_eq_some.mp hu
      exact ⟨s', hs, ih.mpr ⟨u, hr, ht⟩⟩

/-- **The invariant rule**, for runs whose steps meet a condition. -/
theorem run_invariant (hstep : ∀ s a s', P s → ok s a → step s a = some s' → P s')
    {s t : σ} {as : List α} (h₀ : P s) (hm : Meets step ok s as) (hr : run step s as = some t) :
    P t := by
  induction as generalizing s with
  | nil =>
    rw [run_nil, Option.some.injEq] at hr
    exact hr ▸ h₀
  | cons a as ih =>
    obtain ⟨s', hs, hr'⟩ := run_cons_eq_some.mp hr
    exact ih (hstep s a s' h₀ hm.1 hs) (hm.2 s' hs) hr'

/-- The invariant rule, for invariants that speak about the labels so far. -/
theorem run_history {Q : List α → σ → Prop}
    (hstep : ∀ as s a s', Q as s → ok s a → step s a = some s' → Q (as ++ [a]) s') {s t : σ}
    {as : List α} (h₀ : Q [] s) (hm : Meets step ok s as) (hr : run step s as = some t) : Q as t := by
  -- The labels so far stand before those to come.
  have hgen : ∀ bs cs u, Q bs u → Meets step ok u cs → run step u cs = some t → Q (bs ++ cs) t := by
    intro bs cs
    induction cs generalizing bs with
    | nil =>
      intro u hu _ hrun
      rw [run_nil, Option.some.injEq] at hrun
      rwa [List.append_nil, ← hrun]
    | cons c cs ih =>
      intro u hu hmeets hrun
      obtain ⟨u', hs, hrun'⟩ := run_cons_eq_some.mp hrun
      rw [List.append_cons]
      exact ih (bs ++ [c]) u' (hstep bs u c u' hu hmeets.1 hs) (hmeets.2 u' hs) hrun'
  exact hgen [] as s h₀ hm hr

theorem Meets.and {ok' : σ → α → Prop} {as : List α} : ∀ {s : σ}, Meets step ok s as →
    Meets step ok' s as → Meets step (fun s a ↦ ok s a ∧ ok' s a) s as := by
  induction as with
  | nil => exact fun _ _ ↦ trivial
  | cons a as ih =>
    intro s h h'
    exact ⟨⟨h.1, h'.1⟩, fun s' hs' ↦ ih (h.2 s' hs') (h'.2 s' hs')⟩

/-- Steps that meet a condition keep an invariant, and with it meet what follows from both. -/
theorem Meets.imp_of_invariant {ok' : σ → α → Prop}
    (hstep : ∀ s a s', P s → ok s a → step s a = some s' → P s')
    (himp : ∀ s a, P s → ok s a → ok' s a) {as : List α} : ∀ {s : σ}, P s → Meets step ok s as →
    Meets step ok' s as := by
  induction as with
  | nil => exact fun _ _ ↦ trivial
  | cons a as ih =>
    intro s h hm
    exact ⟨himp s a h hm.1, fun s' hs' ↦ ih (hstep s a s' h hm.1 hs') (hm.2 s' hs')⟩

theorem meets_append {as bs : List α} : ∀ {s : σ}, Meets step ok s (as ++ bs) ↔
    Meets step ok s as ∧ ∀ t, run step s as = some t → Meets step ok t bs := by
  induction as with
  | nil =>
    intro s
    refine ⟨fun h ↦ ⟨trivial, fun t ht ↦ ?_⟩, fun h ↦ h.2 s rfl⟩
    rwa [← Option.some.inj ht]
  | cons a as ih =>
    intro s
    constructor
    · rintro ⟨ha, h⟩
      refine ⟨⟨ha, fun s' hs ↦ (ih.mp (h s' hs)).1⟩, fun t ht ↦ ?_⟩
      obtain ⟨s', hs, ht⟩ := run_cons_eq_some.mp ht
      exact (ih.mp (h s' hs)).2 t ht
    · rintro ⟨⟨ha, h⟩, hrest⟩
      exact ⟨ha, fun s' hs ↦ ih.mpr ⟨h s' hs, fun t ht ↦
        hrest t (run_cons_eq_some.mpr ⟨s', hs, ht⟩)⟩⟩

/-- A condition on the labels alone is met by every run that uses only such labels. -/
theorem meets_of_forall {q : α → Prop} {as : List α} (h : ∀ a ∈ as, q a) :
    ∀ s : σ, Meets step (fun _ a ↦ q a) s as := by
  induction as with
  | nil => intro s; trivial
  | cons a as ih =>
    intro s
    exact ⟨h a List.mem_cons_self, fun s' _ ↦ ih (fun b hb ↦ h b (List.mem_cons_of_mem _ hb)) s'⟩

/-- What a label of the run brings about and the other steps keep holds at the end. -/
theorem run_of_mem {Q : σ → Prop} (hstep : ∀ s a s', P s → ok s a → step s a = some s' → P s')
    (hkeep : ∀ s a s', P s → Q s → ok s a → step s a = some s' → Q s') {a : α}
    (hdo : ∀ s s', P s → step s a = some s' → Q s') {s t : σ} {as : List α} (h₀ : P s)
    (hm : Meets step ok s as) (ha : a ∈ as) (hr : run step s as = some t) : Q t := by
  obtain ⟨bs, cs, rfl⟩ := List.append_of_mem ha
  obtain ⟨u, hu, hr⟩ := run_append_eq_some.mp hr
  obtain ⟨u', hu', hr⟩ := run_cons_eq_some.mp hr
  obtain ⟨hbs, hcs⟩ := meets_append.mp hm
  obtain ⟨hok, hcs⟩ := hcs u hu
  have hP : P u := run_invariant hstep h₀ hbs hu
  refine (run_invariant (P := fun s ↦ P s ∧ Q s) (fun s a s' h hok hs ↦ ?_)
    ⟨hstep u a u' hP hok hu', hdo u u' hP hu'⟩ (hcs u' hu') hr).2
  exact ⟨hstep s a s' h.1 hok hs, hkeep s a s' h.1 h.2 hok hs⟩

/-- **The exactness rule.** A condition under which the steps keep an invariant, and without which
the state after the step betrays it, is met along a run exactly when every state passed is good. -/
theorem forall_passed_iff_meets {Q : σ → Prop} {q : σ → α → Prop}
    (hstep : ∀ s a s', P s → q s a → ok s a → step s a = some s' → P s') (hgood : ∀ s, P s → Q s)
    (hexact : ∀ s a s', P s → q s a → step s a = some s' → Q s' → ok s a) {s t : σ} {as : List α}
    (h₀ : P s) (has : Meets step q s as) (hr : run step s as = some t) :
    (∀ as₁ u, as₁ <+: as → run step s as₁ = some u → Q u) ↔ Meets step ok s as := by
  induction as generalizing s with
  | nil =>
    refine ⟨fun _ ↦ trivial, fun _ as₁ u hpre hu ↦ ?_⟩
    rw [List.prefix_nil.mp hpre, run_nil, Option.some.injEq] at hu
    exact hu ▸ hgood s h₀
  | cons a as ih =>
    obtain ⟨s', hs, hr'⟩ := run_cons_eq_some.mp hr
    obtain ⟨ha, has'⟩ := has
    constructor
    · intro h
      -- The state after the first step is good, so the step met the condition.
      have hok : ok s a := hexact s a s' h₀ ha hs
        (h [a] s' ⟨as, rfl⟩ (run_cons_eq_some.mpr ⟨s', hs, rfl⟩))
      refine ⟨hok, fun s'' hs'' ↦ ?_⟩
      obtain rfl := Option.some.inj (hs.symm.trans hs'')
      refine (ih (hstep s a s' h₀ ha hok hs) (has' s' hs) hr').mp fun as₁ u hpre hu ↦ ?_
      exact h (a :: as₁) u (List.cons_prefix_cons.mpr ⟨rfl, hpre⟩)
        (run_cons_eq_some.mpr ⟨s', hs, hu⟩)
    · rintro ⟨hok, hm⟩ as₁ u hpre hu
      rcases List.prefix_cons_iff.mp hpre with rfl | ⟨as₂, rfl, hpre'⟩
      · rw [run_nil, Option.some.injEq] at hu
        exact hu ▸ hgood s h₀
      · obtain ⟨s'', hs'', hu'⟩ := run_cons_eq_some.mp hu
        obtain rfl := Option.some.inj (hs.symm.trans hs'')
        exact (ih (hstep s a s' h₀ ha hok hs) (has' s' hs) hr').mpr (hm s' hs) as₂ u hpre' hu'

/-- Whether a run ends, and ends in a state with a decidable property. -/
instance decidableEnds [DecidablePred P] : ∀ o : Option σ, Decidable (∃ t, o = some t ∧ P t)
  | none => isFalse (by simp)
  | some t => decidable_of_iff (P t) (by simp)

instance decidableMeets [∀ s a, Decidable (ok s a)] :
    ∀ (s : σ) (as : List α), Decidable (Meets step ok s as)
  | _, [] => isTrue trivial
  | s, a :: as => match h : step s a with
    | none => decidable_of_iff (ok s a) ⟨fun ha ↦ ⟨ha, fun s' hs ↦ by simp [h] at hs⟩, And.left⟩
    | some t =>
      have := decidableMeets t as
      decidable_of_iff (ok s a ∧ Meets step ok t as)
        ⟨fun ha ↦ ⟨ha.1, fun s' hs ↦ Option.some.inj (h.symm.trans hs) ▸ ha.2⟩,
          fun ha ↦ ⟨ha.1, ha.2 t h⟩⟩

/-! ## Reachability -/

/-- Some run whose steps meet the condition leads from one state to the other. -/
def Reaches (step : σ → α → Option σ) (ok : σ → α → Prop) (s t : σ) : Prop :=
  ∃ as, run step s as = some t ∧ Meets step ok s as

namespace Reaches

theorem refl (s : σ) : Reaches step ok s s := ⟨[], rfl, trivial⟩

theorem head {s u t : σ} {a : α} (hs : step s a = some u) (ha : ok s a)
    (h : Reaches step ok u t) : Reaches step ok s t := by
  obtain ⟨as, hr, hm⟩ := h
  refine ⟨a :: as, run_cons_eq_some.mpr ⟨u, hs, hr⟩, ha, fun s' hs' ↦ ?_⟩
  rwa [← Option.some.inj (hs.symm.trans hs')]

theorem single {s t : σ} {a : α} (hs : step s a = some t) (ha : ok s a) :
    Reaches step ok s t := head hs ha (refl t)

theorem trans {s u t : σ} (h : Reaches step ok s u) (h' : Reaches step ok u t) :
    Reaches step ok s t := by
  obtain ⟨as, hr, hm⟩ := h
  induction as generalizing s with
  | nil =>
    rw [run_nil, Option.some.injEq] at hr
    rwa [hr]
  | cons a as ih =>
    obtain ⟨s', hs, hr'⟩ := run_cons_eq_some.mp hr
    exact head hs hm.1 (ih hr' (hm.2 s' hs))

/-- The invariant rule, for reachability. -/
theorem invariant (hstep : ∀ s a s', P s → ok s a → step s a = some s' → P s') {s t : σ}
    (h₀ : P s) (h : Reaches step ok s t) : P t := by
  obtain ⟨as, hr, hm⟩ := h
  exact run_invariant hstep h₀ hm hr

theorem mono {ok' : σ → α → Prop} (hok : ∀ s a, ok s a → ok' s a) {s t : σ}
    (h : Reaches step ok s t) : Reaches step ok' s t :=
  h.invariant (P := Reaches step ok' s) (fun _ _ _ hu ha hs ↦ hu.trans (single hs (hok _ _ ha))) (refl s)

end Reaches

/-! ## Ghost components -/

/-- The system with an extra component that is updated from the state before each step. -/
def withGhost (step : σ → α → Option σ) (upd : γ → σ → α → γ) (p : σ × γ) (a : α) :
    Option (σ × γ) :=
  (step p.1 a).map fun s' ↦ (s', upd p.2 p.1 a)

/-- What the ghost component has become after a run. -/
def ghost (step : σ → α → Option σ) (upd : γ → σ → α → γ) : γ → σ → List α → γ
  | g, _, [] => g
  | g, s, a :: as => match step s a with
    | some s' => ghost step upd (upd g s a) s' as
    | none => upd g s a

variable {upd : γ → σ → α → γ}

theorem withGhost_eq_some {p : σ × γ} {a : α} {q : σ × γ} :
    withGhost step upd p a = some q ↔ step p.1 a = some q.1 ∧ q.2 = upd p.2 p.1 a := by
  rw [withGhost, Option.map_eq_some_iff]
  constructor
  · rintro ⟨s', hs, rfl⟩
    exact ⟨hs, rfl⟩
  · rintro ⟨hs, hg⟩
    exact ⟨q.1, hs, by rw [← hg]⟩

/-- The ghost rides along: a run of the system is a run of the extended one. -/
theorem run_withGhost {s t : σ} {as : List α} (hr : run step s as = some t) (g : γ) :
    run (withGhost step upd) (s, g) as = some (t, ghost step upd g s as) := by
  induction as generalizing s g with
  | nil =>
    rw [run_nil, Option.some.injEq] at hr
    rw [run_nil, hr, ghost]
  | cons a as ih =>
    obtain ⟨s', hs, hr'⟩ := run_cons_eq_some.mp hr
    refine run_cons_eq_some.mpr ⟨(s', upd g s a), withGhost_eq_some.mpr ⟨hs, rfl⟩, ?_⟩
    rw [ih hr', ghost, hs]

/-- Two ghosts side by side. -/
theorem ghost_prod {δ : Type*} (upd : γ → σ → α → γ) (upd' : δ → σ → α → δ) {as : List α} :
    ∀ {s : σ} {g : γ} {d : δ}, ghost step (fun p s a ↦ (upd p.1 s a, upd' p.2 s a)) (g, d) s as
        = (ghost step upd g s as, ghost step upd' d s as) := by
  induction as with
  | nil => exact rfl
  | cons a as ih =>
    intro s g d
    rw [ghost, ghost, ghost]
    cases step s a with
    | none => rfl
    | some s' => exact ih

theorem meets_withGhost {as : List α} : ∀ {s : σ} {g : γ}, Meets step ok s as →
    Meets (withGhost step upd) (fun p a ↦ ok p.1 a) (s, g) as := by
  induction as with
  | nil => intro s g _; trivial
  | cons a as ih =>
    intro s g h
    refine ⟨h.1, fun q hq ↦ ?_⟩
    exact ih (h.2 q.1 (withGhost_eq_some.mp hq).1)

end Transition
