import Mathlib.Data.List.Infix

namespace MiniStorage.Replication

variable {E : Type*}

theorem getElem?_of_isPrefix {L M : List E} (h : L <+: M) {k : Nat} {e : E} (hk : L[k]? = some e) :
    M[k]? = some e := by
  obtain ⟨X, rfl⟩ := h
  rw [List.getElem?_append_left (List.getElem?_eq_some_iff.mp hk).1, hk]

theorem prefix_of_take {L M : List E} {i j : Nat} (hij : i ≤ j) (h : L.take j <+: M) :
    L.take i <+: M :=
  (List.take_prefix_take_left hij).trans h

theorem take_eq_of_isPrefix {L M : List E} (h : L <+: M) {i : Nat} (hi : i ≤ L.length) :
    L.take i = M.take i := by
  obtain ⟨X, rfl⟩ := h
  rw [List.take_append_of_le_length hi]

theorem prefix_take {L M : List E} (h : L <+: M) {i : Nat} (hi : L.length ≤ i) :
    L <+: M.take i :=
  List.prefix_take_iff.mpr ⟨h, hi⟩

theorem eq_of_prefix_of_length {L M X : List E} (hL : L <+: X) (hM : M <+: X)
    (h : L.length = M.length) : L = M :=
  (List.prefix_of_prefix_length_le hL hM h.le).eq_of_length h

variable (τ : E → Nat)

def lastTerm (L : List E) : Nat := (L.getLast?.map τ).getD 0

/-- The comparison a voter makes: a later last term wins, then a longer log. -/
def UpToDate (L M : List E) : Prop :=
  lastTerm τ M < lastTerm τ L ∨ lastTerm τ M = lastTerm τ L ∧ M.length ≤ L.length

/-- Every entry sits on the prefix its own term's leader had in front of it. -/
def Rooted (llog : Nat → List E) (L : List E) : Prop :=
  ∀ k e, L[k]? = some e → L.take (k + 1) <+: llog (τ e)

variable {τ} {llog llog' : Nat → List E} {L M : List E}

theorem UpToDate.refl : UpToDate τ L L := .inr ⟨rfl, le_rfl⟩

theorem lastTerm_of_getElem? {k : Nat} {e : E} (hk : L[k]? = some e) (hL : L.length = k + 1) :
    lastTerm τ L = τ e := by
  rw [lastTerm, List.getLast?_eq_getElem?, hL, Nat.add_sub_cancel, hk]
  rfl

theorem exists_last_of_ne_nil (h : L ≠ []) :
    ∃ k e, L[k]? = some e ∧ L.length = k + 1 ∧ lastTerm τ L = τ e := by
  have hpos := List.length_pos_iff.mpr h
  obtain ⟨e, hk⟩ : ∃ e, L[L.length - 1]? = some e := ⟨_, List.getElem?_eq_getElem (by omega)⟩
  exact ⟨_, e, hk, by omega, lastTerm_of_getElem? hk (by omega)⟩

theorem Rooted.nil : Rooted τ llog [] := by
  intro k e h
  simp at h

theorem Rooted.of_isPrefix (h : Rooted τ llog M) (hp : L <+: M) : Rooted τ llog L := by
  intro k e hk
  have hlt := (List.getElem?_eq_some_iff.mp hk).1
  rw [take_eq_of_isPrefix hp hlt]
  exact h k e (getElem?_of_isPrefix hp hk)

theorem Rooted.mono (h : Rooted τ llog L) (hl : ∀ t, llog t <+: llog' t) : Rooted τ llog' L :=
  fun k e hk => (h k e hk).trans (hl _)

theorem Rooted.append_one (h : Rooted τ llog L) {e : E} (he : L ++ [e] <+: llog (τ e)) :
    Rooted τ llog (L ++ [e]) := by
  intro k x hk
  rcases Nat.lt_or_ge k L.length with hlt | hge
  · rw [List.getElem?_append_left hlt] at hk
    rw [List.take_append_of_le_length hlt]
    exact h k x hk
  · have hk' := (List.getElem?_eq_some_iff.mp hk).1
    obtain rfl : k = L.length := by simp at hk'; omega
    obtain rfl : e = x := by simpa using hk
    rwa [List.take_of_length_le (by simp)]

/-- Log matching: logs that agree on a term at one position agree up to there. -/
theorem Rooted.matching (hL : Rooted τ llog L) (hM : Rooted τ llog M) {k : Nat} {x y : E}
    (hx : L[k]? = some x) (hy : M[k]? = some y) (h : τ x = τ y) :
    L.take (k + 1) = M.take (k + 1) := by
  have hlx := (List.getElem?_eq_some_iff.mp hx).1
  have hly := (List.getElem?_eq_some_iff.mp hy).1
  have hpx := hL k x hx
  rw [h] at hpx
  exact eq_of_prefix_of_length hpx (hM k y hy) (by simp; omega)

theorem Rooted.term_le (hL : Rooted τ llog L) (hl : ∀ t, ∀ e ∈ llog t, τ e ≤ t) {i j : Nat} {x y : E}
    (hij : i ≤ j) (hx : L[i]? = some x) (hy : L[j]? = some y) : τ x ≤ τ y := by
  have hx' : (L.take (j + 1))[i]? = some x := by rw [List.getElem?_take_of_lt (by omega), hx]
  exact hl _ _ (List.mem_of_getElem? (getElem?_of_isPrefix (hL j y hy) hx'))

/-- A log at least as up to date as one that holds a prefix of a term's log,
ending in an entry of that term, holds the prefix too, unless its own last
term is later and that term's leader lacks the prefix. -/
theorem Rooted.upToDate (hL : Rooted τ llog L) (hM : Rooted τ llog M)
    (hl : ∀ t, ∀ e ∈ llog t, τ e ≤ t) (hup : UpToDate τ L M) {t k : Nat} {e : E}
    (he : (llog t)[k]? = some e) (ht : τ e = t) (hp : (llog t).take (k + 1) <+: M) :
    (llog t).take (k + 1) <+: L ∨
      ∃ x ∈ L, t < τ x ∧ ¬ (llog t).take (k + 1) <+: llog (τ x) := by
  have hk := (List.getElem?_eq_some_iff.mp he).1
  have heM : M[k]? = some e := getElem?_of_isPrefix hp (by rw [List.getElem?_take_of_lt (by omega), he])
  have hMne : M ≠ [] := by rintro rfl; simp at heM
  obtain ⟨m, y, hy, hm, hty⟩ := exists_last_of_ne_nil (τ := τ) hMne
  have hkm : k ≤ m := by have := (List.getElem?_eq_some_iff.mp heM).1; omega
  have hle : t ≤ lastTerm τ M := by rw [hty, ← ht]; exact hM.term_le hl hkm heM hy
  have hLne : L ≠ [] := by
    rintro rfl
    rcases hup with h | ⟨-, h⟩
    · simp [lastTerm] at h
    · simp [hm] at h
  obtain ⟨n, x, hx, hn, htx⟩ := exists_last_of_ne_nil (τ := τ) hLne
  have hLx : L <+: llog (τ x) := by
    have h := hL n x hx
    rwa [List.take_of_length_le (by omega)] at h
  rcases hup with h | ⟨h, hlen⟩
  · -- a later last term: its leader either has the prefix in front of that term, or lacks it
    by_cases hc : (llog t).take (k + 1) <+: llog (τ x)
    · left
      have hkn : k ≤ n := by
        by_contra hlt
        have hx' := getElem?_of_isPrefix hLx hx
        have he' : (llog (τ x))[k]? = some e :=
          getElem?_of_isPrefix hc (by rw [List.getElem?_take_of_lt (by omega), he])
        have hroot : Rooted τ llog ((llog (τ x)).take (k + 1)) := by
          have : (llog t).take (k + 1) = (llog (τ x)).take (k + 1) :=
            eq_of_prefix_of_length hc (List.take_prefix _ _)
              (by have := (List.getElem?_eq_some_iff.mp he').1; simp; omega)
          rw [← this]
          exact hM.of_isPrefix hp
        have := hroot.term_le hl (i := n) (j := k) (by omega)
          (by rw [List.getElem?_take_of_lt (by omega), hx'])
          (by rw [List.getElem?_take_of_lt (by omega), he'])
        omega
      exact List.prefix_of_prefix_length_le hc hLx (by simp; omega)
    · exact .inr ⟨x, List.mem_of_getElem? hx, by omega, hc⟩
  · -- equal last terms: both logs are prefixes of that term's log
    left
    have hMy : M <+: llog (τ y) := by
      have h := hM m y hy
      rwa [List.take_of_length_le (by omega)] at h
    rw [show τ y = τ x by omega] at hMy
    exact hp.trans (List.prefix_of_prefix_length_le hMy hLx hlen)

end MiniStorage.Replication
