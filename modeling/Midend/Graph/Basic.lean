/-!
# Finite directed graphs

A graph gives every node the list of nodes that an edge leads to from it, and a finite list that
contains all nodes to which edges lead. The list bounds every search.

`Digraph.Walk` is a sequence of edges; `Digraph.Reaches` says that there is one, and
`Digraph.Dominates` that none from a root avoids a node.
-/

namespace Midend

/-- A directed graph with finitely many nodes at the ends of edges. -/
structure Digraph (ν : Type) where
  /-- The nodes that edges lead to from a node, in the order in which searches follow them. -/
  next : ν → List ν
  /-- Nodes that include every node to which an edge leads. -/
  bound : List ν

namespace Digraph

variable {ν : Type}

/-- Every edge leads to a node of the bound. -/
def Bounded (g : Digraph ν) : Prop := ∀ a b, b ∈ g.next a → b ∈ g.bound

/-- A walk along edges, by the nodes that it visits in order, both ends included. -/
inductive Walk (g : Digraph ν) : ν → List ν → ν → Prop where
  /-- The walk that stays where it is. -/
  | nil (a : ν) : Walk g a [a] a
  /-- An edge and a walk from where it leads to. -/
  | cons {a b c : ν} {path : List ν} (edge : b ∈ g.next a) (rest : Walk g b path c) :
      Walk g a (a :: path) c

/-- There is a walk from the first node to the second. -/
def Reaches (g : Digraph ν) (a b : ν) : Prop := ∃ path, g.Walk a path b

/-- Every walk from the root to the second node goes through the first. -/
def Dominates (g : Digraph ν) (root d a : ν) : Prop := ∀ path, g.Walk root path a → d ∈ path

variable {g : Digraph ν} {a b c : ν}

theorem Walk.left_mem {path : List ν} (w : g.Walk a path b) : a ∈ path := by
  cases w <;> simp

theorem Walk.right_mem {path : List ν} (w : g.Walk a path b) : b ∈ path := by
  induction w with
  | nil a => simp
  | cons _ _ ih => exact List.mem_cons_of_mem _ ih

/-- Walks can be joined where one ends and the other begins. -/
theorem Walk.trans {p q : List ν} (w : g.Walk a p b) (w' : g.Walk b q c) :
    g.Walk a (p ++ q.tail) c := by
  induction w with
  | nil a => cases w' with
    | nil => exact .nil _
    | cons edge rest => exact .cons edge rest
  | cons edge _ ih => exact .cons edge (ih w')

theorem Reaches.refl (a : ν) : g.Reaches a a := ⟨[a], .nil a⟩

theorem Reaches.trans (h : g.Reaches a b) (h' : g.Reaches b c) : g.Reaches a c := by
  obtain ⟨p, w⟩ := h
  obtain ⟨q, w'⟩ := h'
  exact ⟨_, w.trans w'⟩

theorem Reaches.step (h : g.Reaches a b) (edge : c ∈ g.next b) : g.Reaches a c :=
  h.trans ⟨[b, c], .cons edge (.nil c)⟩

theorem Dominates.refl (root a : ν) : g.Dominates root a a := fun _ w => w.right_mem

theorem Dominates.root (root a : ν) : g.Dominates root root a := fun _ w => w.left_mem

end Digraph

end Midend
