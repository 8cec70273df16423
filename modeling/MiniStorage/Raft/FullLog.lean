import MiniStorage.Raft.Intact
import MiniStorage.Replication.Logs

namespace MiniStorage.Raft

open RaftNode

/-- Entries numbered one after another behind a base index. -/
def Numbered (b : Nat) (M : List LogEntry) : Prop := ∀ k e, M[k]? = some e → e.index = b + k + 1

/-- The term of the entry at an index of a log without a sentinel; none is at 0 or past the end. -/
def termAt (L : List LogEntry) : Nat → Nat
  | 0 => 0
  | i + 1 => ((L[i]?).map (·.term)).getD 0

variable {b s i : Nat} {e : LogEntry} {M L log : List LogEntry}

theorem Numbered.nil : Numbered b [] := by
  intro k e h
  simp at h

theorem Numbered.head (h : Numbered b (e :: M)) : e.index = b + 1 := h 0 e rfl

theorem Numbered.tail (h : Numbered b (e :: M)) : Numbered (b + 1) M := by
  intro k x hk
  have := h (k + 1) x (by simpa using hk)
  omega

theorem Numbered.of_isPrefix (h : Numbered b M) (hp : L <+: M) : Numbered b L := by
  obtain ⟨X, rfl⟩ := hp
  intro k e hk
  exact h k e (by rw [List.getElem?_append_left (List.getElem?_eq_some_iff.mp hk).1, hk])

theorem Numbered.drop (h : Numbered b M) (j : Nat) : Numbered (b + j) (M.drop j) := by
  intro k e hk
  rw [List.getElem?_drop] at hk
  have := h _ e hk
  omega

theorem Numbered.append (h : Numbered b M) (hL : Numbered (b + M.length) L) : Numbered b (M ++ L) := by
  intro k e hk
  rcases Nat.lt_or_ge k M.length with hlt | hge
  · exact h k e (by rwa [List.getElem?_append_left hlt] at hk)
  · rw [List.getElem?_append_right hge] at hk
    have := hL _ e hk
    omega

theorem Numbered.single (h : e.index = b + 1) : Numbered b [e] := by
  intro k x hk
  obtain ⟨rfl, rfl⟩ : k = 0 ∧ e = x := by simpa [List.getElem?_singleton] using hk
  exact h

theorem Numbered.find (h : Numbered b M) (i : Nat) :
    M.find? (·.index = i + 1) = if b ≤ i then M[i - b]? else none := by
  induction M generalizing b with
  | nil => simp
  | cons e M ih =>
      have he := h.head
      rw [List.find?_cons, ih h.tail]
      rcases Nat.lt_trichotomy i b with hlt | rfl | hgt
      · simp [he, Nat.not_le.mpr hlt, show ¬ b + 1 ≤ i by omega, show ¬ b = i by omega]
      · simp [he]
      · obtain ⟨j, rfl⟩ : ∃ j, i = b + 1 + j := ⟨i - (b + 1), by omega⟩
        simp [he, show b ≤ b + 1 + j by omega, show ¬ b = b + 1 + j by omega,
          show b + 1 + j - b = j + 1 by omega]

theorem Numbered.filter (h : Numbered b M) (j : Nat) :
    (M.filter fun e => j + 1 ≤ e.index) = M.drop (j - b) := by
  induction M generalizing b with
  | nil => simp
  | cons e M ih =>
      have he := h.head
      rw [List.filter_cons, ih h.tail]
      rcases Nat.lt_or_ge b j with hlt | hge
      · rw [if_neg (by simp; omega), show j - b = j - (b + 1) + 1 by omega, List.drop_succ_cons]
      · rw [if_pos (by simp; omega), show j - b = 0 by omega, show j - (b + 1) = 0 by omega]
        rfl

theorem Numbered.rdropWhile (h : Numbered b M) (hi : b ≤ i) :
    (M.rdropWhile fun e => i + 1 ≤ e.index) = M.take (i - b) := by
  induction M using List.reverseRecOn with
  | nil => simp
  | append_singleton M e ih =>
      have he : e.index = b + M.length + 1 := h M.length e (by simp)
      rw [List.rdropWhile_concat]
      split
      · next hlt =>
        have hlt : i + 1 ≤ e.index := by simpa using hlt
        rw [ih (h.of_isPrefix (List.prefix_append _ _)), List.take_append_of_le_length (by omega)]
      · next hge =>
        have hge : e.index < i + 1 := by simpa using hge
        rw [List.take_of_length_le (by simp; omega)]

theorem termAt_succ {k : Nat} (h : L[k]? = some e) : termAt L (k + 1) = e.term := by
  rw [termAt, h]
  rfl

theorem termAt_of_isPrefix (h : L <+: M) (hi : i ≤ L.length) : termAt L i = termAt M i := by
  cases i with
  | zero => rfl
  | succ i =>
      rw [termAt, termAt]
      obtain ⟨X, rfl⟩ := h
      rw [List.getElem?_append_left hi]

theorem termAt_length : termAt L L.length = Replication.lastTerm LogEntry.term L := by
  rcases List.eq_nil_or_concat' L with rfl | ⟨M, e, rfl⟩
  · rfl
  · have h : (M ++ [e])[M.length]? = some e := by simp
    rw [List.length_append, List.length_singleton, termAt_succ h,
      Replication.lastTerm_of_getElem? h (by simp)]

/-- A node's log is the sentinel and what a snapshot position leaves of a full log. -/
structure Holds (log : List LogEntry) (s : Nat) (L : List LogEntry) : Prop where
  eq : log = {} :: L.drop s
  le : s ≤ L.length
  numbered : Numbered 0 L

theorem Holds.start : Holds [{}] 0 [] := ⟨rfl, le_rfl, .nil⟩

theorem Holds.back_of_lt (h : Holds log s L) (hs : s < L.length) :
    L[L.length - 1]? = some (back log) ∧ (back log).index = L.length := by
  have hlast : back log = L.getLast (List.ne_nil_of_length_pos (by omega)) := by
    rw [back, h.eq, List.getLastD_cons, List.getLastD_eq_getLast?, List.getLast?_drop, if_neg (by omega),
      List.getLast?_eq_some_getLast (List.ne_nil_of_length_pos (by omega))]
    rfl
  have hget : L[L.length - 1]? = some (back log) := by
    rw [hlast, ← List.getLast?_eq_getElem?]
    exact List.getLast?_eq_some_getLast _
  exact ⟨hget, by have := h.numbered _ _ hget; omega⟩

theorem Holds.back_of_eq (h : Holds log s L) (hs : L.length = s) : back log = {} := by
  rw [back, h.eq, List.drop_eq_nil_of_le (by omega)]
  rfl

theorem Holds.back_le (h : Holds log s L) : (back log).index ≤ L.length := by
  rcases h.le.lt_or_eq with hs | hs
  · rw [(h.back_of_lt hs).2]
  · rw [h.back_of_eq hs.symm]; exact Nat.zero_le _

/-- A log that reaches its own snapshot position reaches the end of the full log. -/
theorem Holds.back_index (h : Holds log s L) (hs : s ≤ (back log).index) : (back log).index = L.length := by
  rcases h.le.lt_or_eq with hlt | heq
  · exact (h.back_of_lt hlt).2
  · have hb := h.back_of_eq heq.symm
    rw [hb] at hs ⊢
    have hs : s ≤ 0 := hs
    show 0 = L.length
    omega

theorem Holds.lt_of_back (h : Holds log s L) (hb : (back log).index = L.length) (hL : 0 < L.length) :
    s < L.length := by
  rcases h.le.lt_or_eq with hlt | heq
  · exact hlt
  · rw [h.back_of_eq heq.symm] at hb
    have hb : 0 = L.length := hb
    omega

theorem Holds.max_back (h : Holds log s L) : max (back log).index s = L.length := by
  rcases h.le.lt_or_eq with hs | hs
  · rw [(h.back_of_lt hs).2]; omega
  · rw [h.back_of_eq hs.symm, ← hs]; exact Nat.max_eq_right (Nat.zero_le _)

theorem Holds.back_cases (h : Holds log s L) :
    (back log).index = L.length ∧ (back log).term = Replication.lastTerm LogEntry.term L ∨
      L.length = s ∧ 0 < s ∧ back log = {} := by
  rcases h.le.lt_or_eq with hs | hs
  · obtain ⟨hget, hi⟩ := h.back_of_lt hs
    exact .inl ⟨hi, (Replication.lastTerm_of_getElem? hget (by omega)).symm⟩
  · have hb := h.back_of_eq hs.symm
    rcases Nat.eq_zero_or_pos s with h0 | h0
    · have hnil : L = [] := List.eq_nil_of_length_eq_zero (by omega)
      rw [hb, hnil]
      exact .inl ⟨rfl, rfl⟩
    · exact .inr ⟨hs.symm, h0, hb⟩

theorem Holds.find_succ (h : Holds log s L) (i : Nat) :
    log.find? (·.index = i + 1) = if s ≤ i then L[i]? else none := by
  have hd := h.numbered.drop s
  rw [Nat.zero_add] at hd
  rw [h.eq, List.find?_cons_of_neg (by simp), hd.find]
  split
  · rw [List.getElem?_drop]
    congr 1
    omega
  · rfl

theorem Holds.find_zero (h : Holds log s L) : log.find? (·.index = 0) = some {} := by
  rw [h.eq]
  rfl

theorem Holds.mem_iff (h : Holds log s L) : e ∈ log ↔ e = {} ∨ ∃ k, s ≤ k ∧ L[k]? = some e := by
  rw [h.eq, List.mem_cons, List.mem_iff_getElem?]
  refine or_congr Iff.rfl ⟨fun ⟨k, hk⟩ => ⟨s + k, by omega, by rwa [List.getElem?_drop] at hk⟩, fun ⟨k, hs, hk⟩ => ?_⟩
  exact ⟨k - s, by rwa [List.getElem?_drop, show s + (k - s) = k by omega]⟩

theorem Holds.filter (h : Holds log s L) (j : Nat) :
    (log.filter fun e => j + 1 ≤ e.index) = L.drop (max s j) := by
  have hd := h.numbered.drop s
  rw [Nat.zero_add] at hd
  rw [h.eq, List.filter_cons_of_neg (by simp), hd.filter, List.drop_drop]
  congr 1
  omega

theorem Holds.trim (h : Holds log s L) {t : Nat} (hst : s ≤ t) (ht : t ≤ L.length) :
    Holds (trimLog log t) t L := by
  have hd := h.numbered.drop s
  rw [Nat.zero_add] at hd
  refine ⟨?_, ht, h.numbered⟩
  have hf : ((L.drop s).filter fun e => t < e.index) = (L.drop s).filter fun e => t + 1 ≤ e.index := rfl
  rw [h.eq, trimLog, List.tail_cons, hf, hd.filter, List.drop_drop, show s + (t - s) = t by omega]
  rfl

theorem rdropWhile_cons_of_neg {p : LogEntry → Bool} (he : p e = false) :
    (e :: M).rdropWhile p = e :: M.rdropWhile p := by
  induction M using List.reverseRecOn with
  | nil => simp [List.rdropWhile, he]
  | append_singleton M x ih =>
      rw [← List.cons_append, List.rdropWhile_concat, List.rdropWhile_concat]
      split
      · exact ih
      · rfl

theorem Holds.pop (h : Holds log s L) (hs : s ≤ i) (hi : i ≤ L.length) :
    ∃ log', popFrom log (i + 1) = some log' ∧ Holds log' s (L.take i) := by
  have hd := h.numbered.drop s
  rw [Nat.zero_add] at hd
  refine ⟨{} :: (L.take i).drop s, ?_, rfl, by simp; omega, h.numbered.of_isPrefix (List.take_prefix _ _)⟩
  rw [popFrom, h.eq, rdropWhile_cons_of_neg (by simp), hd.rdropWhile hs, List.drop_take]

theorem Holds.append_one (h : Holds log s L) (he : e.index = L.length + 1) :
    Holds (log ++ [e]) s (L ++ [e]) := by
  refine ⟨?_, by simpa using Nat.le_succ_of_le h.le, h.numbered.append (.single (by omega))⟩
  rw [h.eq, List.drop_append_of_le_length h.le]
  rfl

/-- The append loop on a log that reaches its end: it adds what lies past that end. -/
theorem Holds.appendNew (h : Holds log s L) (hback : (back log).index = L.length) (hM : Numbered b M)
    (hb : b ≤ L.length) : Holds (appendNew log M) s (L ++ M.drop (L.length - b)) ∧
      (back (appendNew log M)).index = (L ++ M.drop (L.length - b)).length := by
  induction M generalizing b log L with
  | nil => simpa [RaftNode.appendNew] using ⟨h, hback⟩
  | cons e M ih =>
      have he := hM.head
      rw [RaftNode.appendNew, List.foldl_cons, ← RaftNode.appendNew]
      rcases hb.lt_or_eq with hlt | rfl
      · rw [if_neg (by omega), show L.length - b = L.length - (b + 1) + 1 by omega, List.drop_succ_cons]
        exact ih h hback hM.tail hlt
      · have := ih (h.append_one he) (by simp [back, he]) hM.tail (by simp)
        rw [show (L ++ [e]).length - (L.length + 1) = 0 by simp, List.drop_zero, List.append_assoc] at this
        rw [if_pos (by omega), Nat.sub_self, List.drop_zero]
        exact this

end MiniStorage.Raft
