import Mathlib.Data.List.Induction
import Mathlib.Data.List.Nodup
import Mathlib.Data.Set.BooleanAlgebra
import Mathlib.Data.Set.Disjoint
import Mathlib.Logic.Function.Iterate
import Mathlib.Order.CompletePartialOrder

namespace MiniStorage.Footprints

variable {I L S K V : Type*}

/-- The steps of a thread neither see nor change what lies outside of its footprint. -/
structure Confined (view : S → K → V) (step : L → S → L × S) (F : Set K) : Prop where
  frame : ∀ l s, ∀ k ∉ F, view (step l s).2 k = view s k
  sees : ∀ l s t, (∀ k ∈ F, view s k = view t k) →
    (step l s).1 = (step l t).1 ∧ ∀ k ∈ F, view (step l s).2 k = view (step l t).2 k

/-- So many steps of a thread with nobody else about. -/
def alone (step : L → S → L × S) (n : Nat) : L × S → L × S := (fun c => step c.1 c.2)^[n]

/-- A thread in that state does nothing any more. -/
def Halted (step : L → S → L × S) (l : L) : Prop := ∀ s, step l s = (l, s)

variable [DecidableEq I]

/-- Threads that take turns on one store. -/
def turn (step : I → L → S → L × S) (c : (I → L) × S) (i : I) : (I → L) × S :=
  (Function.update c.1 i (step i (c.1 i) c.2).1, (step i (c.1 i) c.2).2)

def interleave (step : I → L → S → L × S) (c : (I → L) × S) (schedule : List I) : (I → L) × S :=
  schedule.foldl (turn step) c

variable {view : S → K → V} {step : I → L → S → L × S} {F : I → Set K} {c : (I → L) × S} {schedule schedule' : List I}
  {i : I} {k : K} {n m : Nat} {p : L × S}

omit [DecidableEq I] in
theorem alone_zero (step : L → S → L × S) (p : L × S) : alone step 0 p = p := rfl

omit [DecidableEq I] in
theorem alone_succ (step : L → S → L × S) (n : Nat) (p : L × S) :
    alone step (n + 1) p = step (alone step n p).1 (alone step n p).2 := Function.iterate_succ_apply' _ n p

omit [DecidableEq I] in
theorem alone_halted {step : L → S → L × S} (h : Halted step (alone step n p).1) (hnm : n ≤ m) :
    alone step m p = alone step n p := by
  induction m, hnm using Nat.le_induction with
  | base => rfl
  | succ m _ ih => rw [alone_succ, ih, h]

omit [DecidableEq I] in
theorem alone_eq_of_halted {step : L → S → L × S} (hn : Halted step (alone step n p).1)
    (hm : Halted step (alone step m p).1) : alone step n p = alone step m p := by
  rcases Nat.le_total n m with h | h
  · exact (alone_halted hn h).symm
  · exact alone_halted hm h

theorem turn_self (c : (I → L) × S) (i : I) : (turn step c i).1 i = (step i (c.1 i) c.2).1 :=
  Function.update_self ..

theorem turn_of_ne (c : (I → L) × S) {i j : I} (h : i ≠ j) : (turn step c j).1 i = c.1 i := Function.update_of_ne h ..

theorem turn_snd (c : (I → L) × S) (i : I) : (turn step c i).2 = (step i (c.1 i) c.2).2 := rfl

theorem interleave_append (schedule schedule' : List I) :
    interleave step c (schedule ++ schedule') = interleave step (interleave step c schedule) schedule' :=
  List.foldl_append

/-- With disjoint footprints every thread fares as if it were alone, however the threads take turns. -/
theorem interleave_alone (hconfined : ∀ i, Confined view (step i) (F i))
    (hdisjoint : Pairwise fun i j => Disjoint (F i) (F j))
    (c : (I → L) × S) (schedule : List I) :
    (∀ i, (interleave step c schedule).1 i = (alone (step i) (schedule.count i) (c.1 i, c.2)).1 ∧
      ∀ k ∈ F i, view (interleave step c schedule).2 k = view (alone (step i) (schedule.count i) (c.1 i, c.2)).2 k) ∧
    ∀ k, (∀ i, k ∉ F i) → view (interleave step c schedule).2 k = view c.2 k := by
  induction schedule using List.reverseRecOn with
  | nil => exact ⟨fun i => ⟨rfl, fun _ _ => rfl⟩, fun _ _ => rfl⟩
  | append_singleton schedule j ih =>
      obtain ⟨hthread, hrest⟩ := ih
      rw [interleave_append]
      generalize hd : interleave step c schedule = d at hthread hrest
      change (∀ i, (turn step d j).1 i = _ ∧ ∀ k ∈ F i, view (turn step d j).2 k = _) ∧ _
      refine ⟨fun i => ?_, fun k hk => ?_⟩
      · obtain ⟨hlocal, hview⟩ := hthread i
        by_cases hij : i = j
        · subst hij
          rw [List.count_append, List.count_singleton_self, alone_succ, turn_self, turn_snd, hlocal]
          exact (hconfined i).sees _ _ _ hview
        · rw [List.count_append, List.count_singleton, if_neg (by simpa using Ne.symm hij), Nat.add_zero,
            turn_of_ne d hij, turn_snd]
          refine ⟨hlocal, fun k hk => ?_⟩
          rw [(hconfined j).frame _ _ k (Set.disjoint_left.mp (hdisjoint hij) hk)]
          exact hview k hk
      · exact ((hconfined j).frame _ _ k (hk j)).trans (hrest k hk)

omit [DecidableEq I] in
/-- So are many steps at once. -/
theorem Confined.alone {step : L → S → L × S} {F : Set K} (h : Confined view step F) (n : Nat) (l : L) :
    (∀ s, ∀ k ∉ F, view (alone step n (l, s)).2 k = view s k) ∧
      ∀ s t, (∀ k ∈ F, view s k = view t k) → (alone step n (l, s)).1 = (alone step n (l, t)).1 ∧
        ∀ k ∈ F, view (alone step n (l, s)).2 k = view (alone step n (l, t)).2 k := by
  induction n with
  | zero => exact ⟨fun _ _ _ => rfl, fun _ _ hst => ⟨rfl, hst⟩⟩
  | succ n ih =>
      obtain ⟨hframe, hsees⟩ := ih
      refine ⟨fun s k hk => ?_, fun s t hst => ?_⟩
      · rw [alone_succ, h.frame _ _ k hk, hframe s k hk]
      · obtain ⟨hlocal, hview⟩ := hsees s t hst
        rw [alone_succ, alone_succ, hlocal]
        exact h.sees _ _ _ hview

omit [DecidableEq I] in
/-- So is a whole thread. -/
theorem Confined.whole {step : L → S → L × S} {F : Set K} (h : Confined view step F) {l : L} {big : S → L × S}
    (hbig : ∀ s, ∃ n, Footprints.alone step n (l, s) = big s) (hhalted : ∀ s, Halted step (big s).1) :
    Confined view (fun _ : L => big) F where
  frame := by
    intro _ s k hk
    obtain ⟨n, hn⟩ := hbig s
    rw [← hn]
    exact (h.alone n l).1 s k hk
  sees := by
    intro _ s t hst
    obtain ⟨n, hn⟩ := hbig s
    obtain ⟨m, hm⟩ := hbig t
    obtain ⟨hlocal, hview⟩ := (h.alone n l).2 s t hst
    have hsame : Footprints.alone step m (l, t) = Footprints.alone step n (l, t) := by
      refine alone_eq_of_halted (hm ▸ hhalted t) ?_
      rw [← hlocal, hn]
      exact hhalted s
    rw [← hn, ← hm, hsame]
    exact ⟨hlocal, hview⟩

theorem interleave_snd (big : I → S → L × S) (c : (I → L) × S) (order : List I) :
    (interleave (fun i (_ : L) => big i) c order).2 = order.foldl (fun s i => (big i s).2) c.2 := by
  induction order generalizing c with
  | nil => rfl
  | cons i order ih => exact ih (turn (fun i (_ : L) => big i) c i)

/-- Once all threads have halted, they leave what they leave one after the other, in any order. -/
theorem serializable (hconfined : ∀ i, Confined view (step i) (F i))
    (hdisjoint : Pairwise fun i j => Disjoint (F i) (F j))
    {start : I → L} {s : S} {big : I → S → L × S} (hbig : ∀ i s, ∃ n, alone (step i) n (start i, s) = big i s)
    (hhalted : ∀ i s, Halted (step i) (big i s).1)
    (h : ∀ i, Halted (step i) ((interleave step (start, s) schedule).1 i)) {order : List I} (hnodup : order.Nodup)
    (hall : ∀ i, i ∈ order) :
    (∀ i, (interleave step (start, s) schedule).1 i = (big i s).1) ∧
      ∀ k, view (interleave step (start, s) schedule).2 k = view (order.foldl (fun s i => (big i s).2) s) k := by
  obtain ⟨hthread, hrest⟩ := interleave_alone hconfined hdisjoint (start, s) schedule
  obtain ⟨hserial, hrest'⟩ :=
    interleave_alone (fun i => (hconfined i).whole (hbig i) (hhalted i)) hdisjoint (start, s) order
  rw [← interleave_snd big (start, s) order]
  have hdone (i : I) : alone (step i) (schedule.count i) (start i, s) = big i s := by
    obtain ⟨n, hn⟩ := hbig i s
    rw [← hn]
    exact alone_eq_of_halted ((hthread i).1 ▸ h i) (hn ▸ hhalted i s)
  refine ⟨fun i => by rw [(hthread i).1, hdone], fun k => ?_⟩
  by_cases hk : ∃ i, k ∈ F i
  · obtain ⟨i, hi⟩ := hk
    have hone : alone (fun _ : L => big i) (order.count i) (start i, s) = big i s := by
      rw [List.count_eq_one_of_mem hnodup (hall i)]
      rfl
    rw [(hthread i).2 k hi, (hserial i).2 k hi, hdone, hone]
  · have hout : ∀ i, k ∉ F i := fun i hi => hk ⟨i, hi⟩
    rw [hrest k hout, hrest' k hout]

end MiniStorage.Footprints
