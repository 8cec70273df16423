import Mathlib.Data.List.Basic

namespace MiniStorage.Runs

variable {S A G : Type*}

/-- Finite runs of a deterministic system in which every step meets a guard.
An action that yields nothing is not enabled in that state. -/
inductive Run (step : S → A → Option S) (guard : S → A → Prop) (s : S) : List A → S → Prop
  | nil : Run step guard s [] s
  | snoc {as : List A} {t u : S} {a : A} :
      Run step guard s as t → guard t a → step t a = some u → Run step guard s (as ++ [a]) u

variable {step : S → A → Option S} {guard : S → A → Prop} {s t u : S} {as bs : List A}

theorem Run.append (h : Run step guard s as t) (k : Run step guard t bs u) :
    Run step guard s (as ++ bs) u := by
  induction k with
  | nil => simpa using h
  | snoc _ ha hs ih => rw [← List.append_assoc]; exact .snoc ih ha hs

theorem Run.single {a : A} (ha : guard s a) (hs : step s a = some t) : Run step guard s [a] t :=
  .snoc .nil ha hs

theorem Run.with_mem {P : A → Prop} (h : Run step guard s as t) (hP : ∀ a ∈ as, P a) :
    Run step (fun s a => guard s a ∧ P a) s as t := by
  induction h with
  | nil => exact .nil
  | snoc _ ha hst ih =>
      refine .snoc (ih ?_) ⟨ha, hP _ (by simp)⟩ hst
      exact fun a hmem => hP a (List.mem_append_left _ hmem)

/-- What holds at the start and is kept by every guarded step holds all along. -/
theorem Run.invariant {I : S → Prop} (hI : ∀ s a t, I s → guard s a → step s a = some t → I t)
    (hs : I s) (h : Run step guard s as t) : I t := by
  induction h with
  | nil => exact hs
  | snoc _ ha hst ih => exact hI _ _ _ ih ha hst

/-- What holds all along may be used in every step. -/
theorem Run.with_invariant {I : S → Prop} (hI : ∀ s a t, I s → guard s a → step s a = some t → I t)
    (hs : I s) (h : Run step guard s as t) : Run step (fun s a => I s ∧ guard s a) s as t := by
  induction h with
  | nil => exact .nil
  | snoc h ha hst ih => exact .snoc ih ⟨h.invariant hI hs, ha⟩ hst

/-- What every step lowers bounds the length of a run. -/
theorem Run.length_le (measure : S → Nat)
    (hstep : ∀ s a t, guard s a → step s a = some t → measure t < measure s) (h : Run step guard s as t) :
    as.length + measure t ≤ measure s := by
  induction h with
  | nil => exact Nat.le_of_eq (Nat.zero_add _)
  | snoc _ ha hst ih =>
      have hlt := hstep _ _ _ ha hst
      rw [List.length_append, List.length_singleton]
      omega

/-- An invariant that carries a history. The history a step adds only extends
the one before it, so what the run has recorded stays recorded. -/
theorem Run.history {R : G → G → Prop} (hrefl : ∀ g, R g g) (htrans : ∀ {a b c}, R a b → R b c → R a c)
    {I : G → S → Prop}
    (hI : ∀ g s a t, I g s → guard s a → step s a = some t → ∃ g', R g g' ∧ I g' t)
    {g : G} (hs : I g s) (h : Run step guard s as t) : ∃ g', R g g' ∧ I g' t := by
  induction h with
  | nil => exact ⟨g, hrefl g, hs⟩
  | snoc _ ha hst ih =>
      obtain ⟨g', hg, hi⟩ := ih
      obtain ⟨g'', hg', hi'⟩ := hI _ _ _ _ hi ha hst
      exact ⟨g'', htrans hg hg', hi'⟩

theorem Run.of_snoc {a : A} (h : Run step guard s (as ++ [a]) t) :
    ∃ u, Run step guard s as u ∧ guard u a ∧ step u a = some t := by
  generalize hl : as ++ [a] = l at h
  cases h with
  | nil => simp at hl
  | snoc hrun ha hst =>
      obtain ⟨rfl, hlast⟩ := List.append_inj' hl rfl
      obtain rfl := List.singleton_inj.mp hlast
      exact ⟨_, hrun, ha, hst⟩

theorem Run.unique {allowed : S → A → Prop} (h : Run step guard s as t) (k : Run step allowed s as u) : t = u := by
  induction h generalizing u with
  | nil =>
      generalize hl : ([] : List A) = l at k
      cases k with
      | nil => rfl
      | snoc => simp at hl
  | snoc _ _ hst ih =>
      obtain ⟨v, hv, -, hst'⟩ := k.of_snoc
      obtain rfl := ih hv
      exact Option.some.inj (hst.symm.trans hst')

/-- Where each step has a run of another system in its place, so has every run. -/
theorem Run.simulated {T B : Type*} {next : T → B → Option T} {allowed : T → B → Prop} {R : S → T → Prop}
    (hR : ∀ s a t x, R s x → guard s a → step s a = some t → ∃ bs y, Run next allowed x bs y ∧ R t y) {x : T}
    (hs : R s x) (h : Run step guard s as t) : ∃ bs y, Run next allowed x bs y ∧ R t y := by
  induction h with
  | nil => exact ⟨[], x, .nil, hs⟩
  | snoc _ ha hst ih =>
      obtain ⟨bs, y, hrun, hy⟩ := ih
      obtain ⟨cs, z, hnext, hz⟩ := hR _ _ _ _ hy ha hst
      exact ⟨bs ++ cs, z, hrun.append hnext, hz⟩

/-- Runs computed: the state an action list leads to, if every step is enabled and guarded. -/
def exec (step : S → A → Option S) (guard : S → A → Prop) [∀ s a, Decidable (guard s a)] :
    S → List A → Option S
  | s, [] => some s
  | s, a :: as => if guard s a then (step s a).bind (exec step guard · as) else none

theorem Run.of_exec [∀ s a, Decidable (guard s a)] (h : exec step guard s as = some t) :
    Run step guard s as t := by
  induction as generalizing s with
  | nil => cases h; exact .nil
  | cons a as ih =>
      simp only [exec, Option.ite_none_right_eq_some, Option.bind_eq_some_iff] at h
      obtain ⟨ha, u, hu, h⟩ := h
      exact Run.append (.single ha hu) (ih h)

theorem exists_run_of_exec (step : S → A → Option S) (guard : S → A → Prop) [∀ s a, Decidable (guard s a)] (s : S)
    (as : List A) (p : S → Bool) (h : (exec step guard s as).any p = true) :
    ∃ t, Run step guard s as t ∧ p t = true := by
  cases hx : exec step guard s as with
  | none => simp [hx] at h
  | some t => exact ⟨t, .of_exec hx, by simpa [hx] using h⟩

theorem exists_runs_of_exec (step : S → A → Option S) (guard : S → A → Prop) [∀ s a, Decidable (guard s a)] (s : S)
    (as bs : List A) (p : S → S → Bool)
    (h : (exec step guard s as).any (fun t => (exec step guard t bs).any (p t)) = true) :
    ∃ t u, Run step guard s as t ∧ Run step guard t bs u ∧ p t u = true := by
  obtain ⟨t, ht, h⟩ := exists_run_of_exec step guard s as _ h
  obtain ⟨u, hu, h⟩ := exists_run_of_exec step guard t bs (p t) h
  exact ⟨t, u, ht, hu, h⟩

/-! Systems in which every action is enabled. -/

/-- Every step of the run is guarded. -/
def Guarded (next : S → A → S) (guard : S → A → Prop) : S → List A → Prop
  | _, [] => True
  | s, a :: as => guard s a ∧ Guarded next guard (next s a) as

instance decidableGuarded (next : S → A → S) (guard : S → A → Prop) [∀ s a, Decidable (guard s a)] :
    ∀ s as, Decidable (Guarded next guard s as)
  | _, [] => isTrue trivial
  | s, _ :: as => @instDecidableAnd _ _ _ (decidableGuarded next guard (next s _) as)

/-- Where a step keeps what holds exactly if it is guarded, it holds all along a run exactly if every step is. -/
theorem forall_isPrefix_iff {next : S → A → S} {I : S → Prop} (hI : ∀ s a, I s → (I (next s a) ↔ guard s a))
    (hs : I s) (as : List A) : (∀ done, done <+: as → I (done.foldl next s)) ↔ Guarded next guard s as := by
  induction as generalizing s with
  | nil =>
      refine iff_of_true (fun done hdone => ?_) trivial
      rw [List.prefix_nil.mp hdone]
      exact hs
  | cons a as ih =>
      constructor
      · intro h
        have ha : I (next s a) := h [a] (List.prefix_append [a] as)
        refine ⟨(hI s a hs).mp ha, (ih ha).mp fun done hdone => ?_⟩
        exact h (a :: done) (List.cons_prefix_cons.mpr ⟨rfl, hdone⟩)
      · rintro ⟨ha, has⟩ done hdone
        cases done with
        | nil => exact hs
        | cons b done =>
            obtain ⟨he, hrest⟩ := List.cons_prefix_cons.mp hdone
            subst he
            exact (ih ((hI s b hs).mpr ha)).mpr has done hrest

end MiniStorage.Runs
