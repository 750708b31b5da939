import FlowGraph.Graph.Basic
/-!
Paths of a graph and what they decide: which vertices are reachable, and which vertices every
path to a vertex has to pass.
-/

set_option autoImplicit false

namespace FlowGraph

universe u

namespace Graph

variable {N : Type u}

/-- `g.Path u v vs` says that `vs` are the vertices of a path from `u` to `v`, ends included. -/
inductive Path (g : Graph N) : N → N → List N → Prop
  | single (v : N) : Path g v v [v]
  | step {u v w : N} {vs : List N} (edge : v ∈ g.successors u) (rest : Path g v w vs) :
      Path g u w (u :: vs)

/-- Some path leads from one vertex to the other. -/
def Reachable (g : Graph N) (u v : N) : Prop := ∃ vs, g.Path u v vs

/-- Every path from the entry to `v` passes `d`. -/
def Dominates (g : Graph N) (entry d v : N) : Prop := ∀ vs, g.Path entry v vs → d ∈ vs

/-- `d` dominates `v`, differs from it, and is dominated by all else that does so. -/
structure ImmediatelyDominates (g : Graph N) (entry d v : N) : Prop where
  ne : d ≠ v
  dominates : g.Dominates entry d v
  closest : ∀ c, c ≠ v → g.Dominates entry c v → g.Dominates entry c d

variable {g : Graph N}

theorem Path.start_mem {u v : N} {vs : List N} (h : g.Path u v vs) : u ∈ vs := by
  cases h <;> simp

theorem Path.end_mem {u v : N} {vs : List N} (h : g.Path u v vs) : v ∈ vs := by
  induction h with
  | single v => simp
  | step _ _ ih => exact List.mem_cons_of_mem _ ih

theorem Path.trans {u v w : N} {vs ws : List N} (h : g.Path u v vs) (k : g.Path v w ws) :
    g.Path u w (vs.dropLast ++ ws) := by
  induction h with
  | single v => simpa using k
  | step edge rest ih =>
    rename_i vs
    have hne : vs ≠ [] := List.ne_nil_of_mem rest.start_mem
    rw [List.dropLast_cons_of_ne_nil hne]
    exact Path.step edge (ih k)

theorem Reachable.refl (v : N) : g.Reachable v v := ⟨[v], Path.single v⟩

theorem Reachable.trans {u v w : N} (h : g.Reachable u v) (k : g.Reachable v w) :
    g.Reachable u w := by
  obtain ⟨vs, hvs⟩ := h
  obtain ⟨ws, hws⟩ := k
  exact ⟨_, hvs.trans hws⟩

theorem Dominates.refl (g : Graph N) (entry v : N) : g.Dominates entry v v :=
  fun _ h => h.end_mem

theorem Dominates.entry (g : Graph N) (entry v : N) : g.Dominates entry entry v :=
  fun _ h => h.start_mem

end Graph

end FlowGraph
