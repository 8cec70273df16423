import Mathlib.Logic.Function.Basic
import Mathlib.Logic.Relation

namespace MiniStorage

/-- What each node holds under each name. -/
abbrev Holdings (N I B : Type*) := N → I → Option B

namespace Holdings

variable {N I B : Type*} [DecidableEq N] [DecidableEq I]

def set (h : Holdings N I B) (node : N) (id : I) (x : Option B) : Holdings N I B :=
  Function.update h node (Function.update (h node) id x)

/-- A node gets what another one holds. -/
inductive Copy (h : Holdings N I B) : Holdings N I B → Prop
  | copied (source target : N) (id : I) (x : B) (hx : h source id = some x) : Copy h (h.set target id (some x))

/-- What is held was held before, maybe elsewhere, or has been written. -/
def Drawn (written : I → B → Prop) (h h' : Holdings N I B) : Prop :=
  ∀ node id x, h' node id = some x → (∃ source, h source id = some x) ∨ written id x

/-- All nodes hold the same under a name, if anything. -/
def Agree (h : Holdings N I B) : Prop := ∀ node node' id x x', h node id = some x → h node' id = some x' → x = x'

def Kept (h h' : Holdings N I B) : Prop := ∀ node id x, h node id = some x → h' node id = some x

variable {h h' h'' : Holdings N I B} {written written' : I → B → Prop} {node : N} {id : I} {x : Option B}

theorem set_apply (h : Holdings N I B) (node : N) (id : I) (x : Option B) (node' : N) (id' : I) :
    h.set node id x node' id' = if node' = node ∧ id' = id then x else h node' id' := by
  rw [set]
  by_cases hn : node' = node
  · subst hn
    by_cases hid : id' = id
    · rw [hid, Function.update_self, Function.update_self, if_pos ⟨rfl, rfl⟩]
    · rw [Function.update_self, Function.update_of_ne hid, if_neg fun hboth => hid hboth.2]
  · rw [Function.update_of_ne hn, if_neg fun hboth => hn hboth.1]

omit [DecidableEq N] [DecidableEq I] in
theorem Drawn.refl (written : I → B → Prop) (h : Holdings N I B) : Drawn written h h :=
  fun node _ _ hx => .inl ⟨node, hx⟩

omit [DecidableEq N] [DecidableEq I] in
theorem Drawn.trans (hd : Drawn written h h') (hd' : Drawn written h' h'') : Drawn written h h'' := by
  intro node id x hx
  rcases hd' node id x hx with ⟨source, hsource⟩ | hwritten
  · exact hd source id x hsource
  · exact .inr hwritten

omit [DecidableEq N] [DecidableEq I] in
theorem Drawn.mono (hd : Drawn written h h') (hle : ∀ id x, written id x → written' id x) : Drawn written' h h' :=
  fun node id x hx => (hd node id x hx).imp_right (hle id x)

/-- What a node gets is held somewhere, or has been written, or it gets nothing. -/
theorem drawn_set (hx : ∀ y, x = some y → (∃ source, h source id = some y) ∨ written id y) :
    Drawn written h (h.set node id x) := by
  intro node' id' y hy
  rw [set_apply] at hy
  split at hy
  next hat => exact hat.2 ▸ hx y hy
  next => exact .inl ⟨node', hy⟩

theorem Copy.drawn (hc : Copy h h') : Drawn written h h' := by
  cases hc with
  | copied source target id x hx => exact drawn_set fun y hy => .inl ⟨source, hx.trans hy⟩

theorem drawn_of_copies (hc : Relation.ReflTransGen Copy h h') : Drawn written h h' := by
  induction hc with
  | refl => exact .refl written h
  | tail _ hstep ih => exact ih.trans hstep.drawn

omit [DecidableEq N] [DecidableEq I] in
theorem Agree.of_drawn (ha : Agree h) (hd : Drawn (fun _ _ => False) h h') : Agree h' := by
  intro node node' id x x' hx hx'
  obtain ⟨source, hsource⟩ := (hd node id x hx).resolve_right fun hnone => hnone
  obtain ⟨source', hsource'⟩ := (hd node' id x' hx').resolve_right fun hnone => hnone
  exact ha source source' id x x' hsource hsource'

theorem Copy.kept (ha : Agree h) (hc : Copy h h') : Kept h h' := by
  intro node id y hy
  cases hc with
  | copied source target id' x hx =>
      rw [set_apply]
      split
      next hat => rw [ha node source id y x hy (hat.2 ▸ hx)]
      next => exact hy

/-- Where the nodes agree, copies lose nothing. -/
theorem kept_of_copies (ha : Agree h) (hc : Relation.ReflTransGen Copy h h') : Kept h h' ∧ Agree h' := by
  induction hc with
  | refl => exact ⟨fun _ _ _ hx => hx, ha⟩
  | tail _ hstep ih =>
      refine ⟨fun node id x hx => ?_, ih.2.of_drawn hstep.drawn⟩
      exact hstep.kept ih.2 node id x (ih.1 node id x hx)

end Holdings

end MiniStorage
