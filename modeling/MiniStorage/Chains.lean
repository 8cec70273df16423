import Mathlib.Logic.Function.Basic
import Mathlib.Data.List.Basic

namespace MiniStorage.Chains

open Function

variable {A : Type*}

/-- Following `next` from `a` visits `l` and then stops. -/
def Path (next : A → Option A) : A → List A → Prop
  | a, [] => next a = none
  | a, b :: l => next a = some b ∧ Path next b l

/-- Neighbours in `l` point at each other. -/
def Linked (next prev : A → Option A) : List A → Prop
  | a :: b :: l => next a = some b ∧ prev b = some a ∧ Linked next prev (b :: l)
  | _ => True

variable {next next' prev prev' : A → Option A}

theorem Path.congr {a : A} {l : List A} (h : Path next a l) (hn : ∀ b ∈ a :: l, next' b = next b) :
    Path next' a l := by
  induction l generalizing a with
  | nil => exact (hn a List.mem_cons_self).trans h
  | cons b l ih =>
      refine ⟨(hn a List.mem_cons_self).trans h.1, ih h.2 ?_⟩
      intro c hc
      exact hn c (List.mem_cons_of_mem _ hc)

theorem Path.drop {a : A} {l l' : List A} (h : Path next a (l ++ l')) : Path next ((a :: l).getLast (by simp)) l' := by
  induction l generalizing a with
  | nil => exact h
  | cons b l ih =>
      rw [List.getLast_cons (by simp)]
      exact ih h.2

theorem Linked.congr {l : List A} (h : Linked next prev l) (hn : ∀ a ∈ l.dropLast, next' a = next a)
    (hp : ∀ a ∈ l.tail, prev' a = prev a) : Linked next' prev' l := by
  induction l with
  | nil => trivial
  | cons a l ih =>
      cases l with
      | nil => trivial
      | cons b l =>
          refine ⟨(hn a (by simp)).trans h.1, (hp b (by simp)).trans h.2.1, ih h.2.2 ?_ ?_⟩
          · intro c hc
            exact hn c (by simp [hc])
          · intro c hc
            exact hp c (List.mem_cons_of_mem _ (by simpa using hc))

theorem linked_append {l l' : List A} {a : A} :
    Linked next prev (l ++ a :: l') ↔ Linked next prev (l ++ [a]) ∧ Linked next prev (a :: l') := by
  induction l with
  | nil => simp [Linked]
  | cons b l ih =>
      cases l with
      | nil => simp [Linked, and_assoc]
      | cons c l =>
          simp only [List.cons_append, Linked] at ih ⊢
          rw [ih]
          tauto

/-- The other way round the two pointers change places. -/
theorem Linked.reverse {l : List A} (h : Linked next prev l) : Linked prev next l.reverse := by
  induction l with
  | nil => trivial
  | cons a l ih =>
      cases l with
      | nil => trivial
      | cons b l =>
          have hrest := ih h.2.2
          rw [List.reverse_cons] at hrest
          rw [List.reverse_cons, List.reverse_cons, List.append_assoc]
          exact linked_append.mpr ⟨hrest, h.2.1, h.1, trivial⟩

variable [DecidableEq A]

/-- A new node goes behind the last of the nodes passed so far. -/
theorem Path.insert {a n : A} {l l' : List A} (h : Path next a (l ++ l')) (hd : (a :: l).Nodup)
    (hn : n ∉ a :: (l ++ l')) (hl : ∀ b ∈ l', b ∉ a :: l) :
    Path (update (update next n (next ((a :: l).getLast (by simp)))) ((a :: l).getLast (by simp)) (some n))
      a (l ++ n :: l') := by
  induction l generalizing a with
  | nil =>
      have hna : n ≠ a := fun he => hn (by simp [he])
      refine ⟨by simp, ?_⟩
      cases l' with
      | nil =>
          simp only [List.getLast_singleton]
          exact (update_of_ne hna _ _).trans ((update_self ..).trans h)
      | cons b l' =>
          simp only [List.getLast_singleton]
          refine ⟨(update_of_ne hna _ _).trans ((update_self ..).trans h.1), h.2.congr ?_⟩
          intro c hc
          have hca : c ≠ a := fun he => hl c hc (by simp [he])
          have hcn : c ≠ n := fun he => hn (by simpa [he] using Or.inr hc)
          rw [update_of_ne hca, update_of_ne hcn]
  | cons b l ih =>
      have hab : a ∉ b :: l := (List.nodup_cons.mp hd).1
      have hlast : (b :: l).getLast (by simp) ∈ b :: l := List.getLast_mem _
      have hna : a ≠ n := fun he => hn (by simp [he])
      rw [List.getLast_cons (by simp)]
      refine ⟨?_, ih h.2 (List.nodup_cons.mp hd).2 ?_ ?_⟩
      · have hne : a ≠ (b :: l).getLast (by simp) := fun he => hab (by rwa [← he] at hlast)
        rw [update_of_ne hne, update_of_ne hna]
        exact h.1
      · exact fun hm => hn (List.mem_cons_of_mem _ hm)
      · exact fun c hc hm => hl c hc (List.mem_cons_of_mem _ hm)

theorem Linked.unlink {l l' : List A} {p n q : A} (h : Linked next prev (l ++ p :: n :: q :: l'))
    (hd : (l ++ p :: n :: q :: l').Nodup) :
    Linked (update (update next p (some q)) n none) (update (update prev q (some p)) n none) (l ++ p :: q :: l') := by
  obtain ⟨hl, hr⟩ := linked_append.mp h
  obtain ⟨hdl, hdr, hdis⟩ := List.nodup_append.mp hd
  simp only [List.nodup_cons, List.mem_cons, not_or] at hdr
  obtain ⟨⟨hpn, hpq, hpl⟩, ⟨hnq, hnl⟩, hql, -⟩ := hdr
  refine linked_append.mpr ⟨hl.congr ?_ ?_, ?_, ?_, hr.2.2.2.2.congr ?_ ?_⟩
  · intro a ha
    have hal : a ∈ l := by simpa using ha
    rw [update_of_ne (hdis a hal n (by simp)), update_of_ne (hdis a hal p (by simp))]
  · intro a ha
    have hne : a ≠ n ∧ a ≠ q := by
      rcases List.mem_append.mp (List.mem_of_mem_tail ha) with hal | hap
      · exact ⟨hdis a hal n (by simp), hdis a hal q (by simp)⟩
      · obtain rfl : a = p := by simpa using hap
        exact ⟨hpn, hpq⟩
    rw [update_of_ne hne.1, update_of_ne hne.2]
  · rw [update_of_ne hpn, update_self]
  · rw [update_of_ne (Ne.symm hnq), update_self]
  · intro a ha
    have hne : a ≠ n ∧ a ≠ p := by
      rcases List.mem_cons.mp (List.dropLast_subset _ ha) with rfl | hal
      · exact ⟨Ne.symm hnq, Ne.symm hpq⟩
      · exact ⟨fun he => hnl (he ▸ hal), fun he => hpl (he ▸ hal)⟩
    rw [update_of_ne hne.1, update_of_ne hne.2]
  · intro a ha
    have hal : a ∈ l' := ha
    have hne : a ≠ n ∧ a ≠ q := ⟨fun he => hnl (he ▸ hal), fun he => hql (he ▸ hal)⟩
    rw [update_of_ne hne.1, update_of_ne hne.2]

theorem Linked.insert {p n q : A} {l : List A} (h : Linked next prev (p :: q :: l)) (hd : (p :: n :: q :: l).Nodup) :
    Linked (update (update next n (some q)) p (some n)) (update (update prev q (some n)) n (some p))
      (p :: n :: q :: l) := by
  simp only [List.nodup_cons, List.mem_cons, not_or] at hd
  obtain ⟨⟨hpn, hpq, hpl⟩, ⟨hnq, hnl⟩, hql, -⟩ := hd
  refine ⟨update_self .., update_self .., ?_, ?_, h.2.2.congr ?_ ?_⟩
  · rw [update_of_ne (Ne.symm hpn), update_self]
  · rw [update_of_ne (Ne.symm hnq), update_self]
  · intro a ha
    have hne : a ≠ p ∧ a ≠ n := by
      rcases List.mem_cons.mp (List.dropLast_subset _ ha) with rfl | hal
      · exact ⟨Ne.symm hpq, Ne.symm hnq⟩
      · exact ⟨fun he => hpl (he ▸ hal), fun he => hnl (he ▸ hal)⟩
    rw [update_of_ne hne.1, update_of_ne hne.2]
  · intro a ha
    have hal : a ∈ l := ha
    have hne : a ≠ n ∧ a ≠ q := ⟨fun he => hnl (he ▸ hal), fun he => hql (he ▸ hal)⟩
    rw [update_of_ne hne.1, update_of_ne hne.2]

end MiniStorage.Chains
