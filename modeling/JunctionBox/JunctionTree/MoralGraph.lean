import JunctionBox.Graph.Memory
import JunctionBox.Graph.Store
import JunctionBox.JunctionTree.Elimination

/-!
# The moral graph of a graph in memory

`MoralGraph` copies its argument and marries the parents in the copy.  In memory
it writes to the copy only, so it returns what `moralGraph` computes behind the
graphs there were (`moralGraph_eq`): an undirected graph in which two vertices
are adjacent exactly if one is a parent of the other or they have a common
child, next to the argument as it was (`moralGraph_moralizes`).
-/

namespace JunctionBox

open PartialLoops

namespace Memory

/-- The round of `MoralGraph` for one vertex. -/
def marryParents (imm ret : ℕ) (memory : Memory) (current : CString) : Option Memory := do
  let g ← memory[imm]?
  let v ← g.getVertex current
  (pairs (g.parentLoop v)).foldlM (fun memory p => addEdge memory ret p.1 p.2) memory

/-- `MoralGraph`. -/
def moralGraph (memory : Memory) (imm : ℕ) : Option (Memory × ℕ) := do
  let g ← memory[imm]?
  let ret ← copy memory imm
  let memory ← setDirected ret.1 ret.2 false
  let memory ← walk (getNxtVertex imm) (marryParents imm ret.2) g.getNumVertices
    (g.getFstVertex.map Vertex.label) memory
  return (memory, ret.2)

variable {memory : Memory} {imm : ℕ} {g : Graph}


theorem marryParents_eq (h : memory[imm]? = some g) (fresh : Graph) {current : Vertex}
    (hcurrent : (current.label, current) ∈ g.vertices.first) :
    marryParents imm memory.length (memory ++ [fresh]) current.label =
      (JunctionBox.marryParents g fresh current).map fun g' => memory ++ [g'] := by
  have hget : g.getVertex current.label = some current :=
    (g.vertices.get_eq_some_iff current.label current).mpr hcurrent
  unfold marryParents JunctionBox.marryParents
  simp only [getElem?_append h, hget, Option.bind_eq_bind, Option.bind_some]
  generalize pairs (g.parentLoop current) = new
  induction new generalizing fresh with
  | nil => rfl
  | cons p new ih =>
      rw [List.foldlM_cons, List.foldlM_cons]
      have hadd : addEdge (memory ++ [fresh]) memory.length p.1 p.2 =
          (fresh.addEdge p.1 p.2).map fun g' => memory ++ [g'] := update_alloc memory fresh _
      rw [hadd]
      cases fresh.addEdge p.1 p.2 with
      | none => rfl
      | some g' => exact ih g'

/-- `MoralGraph` allocates what `moralGraph` computes and writes to nothing else. -/
theorem moralGraph_eq (h : memory[imm]? = some g) :
    moralGraph memory imm =
      (JunctionBox.moralGraph g).map fun ret => (memory ++ [ret], memory.length) := by
  unfold moralGraph JunctionBox.moralGraph
  rw [copy_eq h]
  cases hcopy : g.copy with
  | none => simp [h]
  | some ret =>
      have hset : setDirected (memory ++ [ret]) memory.length false =
          some (memory ++ [ret.setDirected false]) := update_alloc memory ret _
      simp only [h, hset, Option.map_some, Option.bind_eq_bind, Option.bind_some]
      rw [walk_vertices h fun fresh _ hv => marryParents_eq h fresh hv, Option.bind_map]
      exact Option.map_eq_bind.symm

end Memory

namespace Graph

/-- An edge leads from `u` to `v`; then `u` is a parent of `v`. -/
def HasEdge (this : Graph) (u v : CString) : Prop := ∃ e ∈ this.edgeList, e.src = u ∧ e.sink = v

theorem hasEdge_iff {this : Graph} {u v : CString} :
    this.HasEdge u v ↔ Edge.create u v ∈ this.edgeList := by
  constructor
  · rintro ⟨e, he, rfl, rfl⟩
    rwa [← eq_create_of_mem he]
  · exact fun he => ⟨_, he, rfl, rfl⟩

/-- A graph consists of its vertices and edges. -/
theorem consists_self (this : Graph) :
    this.Consists {l | l ∈ this.labels} {p | this.HasEdge p.1 p.2} :=
  ⟨fun _ => Iff.rfl, fun _ _ => hasEdge_iff.symm⟩

theorem Consists.hasEdge_iff {this : Graph} {V : Set CString} {E : Set (CString × CString)}
    (h : this.Consists V E) {u v : CString} : this.HasEdge u v ↔ (u, v) ∈ E := by
  rw [Graph.hasEdge_iff, h.edges]

theorem directed_addEdge {this g : Graph} {src sink : CString}
    (h : this.addEdge src sink = some g) : g.directed = this.directed := by
  unfold addEdge at h
  split at h
  · split at h
    · rw [Option.some.inj h]
    · rw [← Option.some.inj h]
      rfl
  · exact absurd h (by simp)

end Graph

/-- `MoralGraph` returns an undirected graph. -/
theorem directed_moralGraph {imm g : Graph} (h : moralGraph imm = some g) :
    g.directed = false := by
  unfold moralGraph at h
  obtain ⟨ret, -, hrun⟩ := Option.bind_eq_some_iff.mp h
  refine foldlM_invariant (fun g : Graph => g.directed = false) hrun rfl ?_
  intro s current s' _ hs hround
  refine foldlM_invariant (fun g : Graph => g.directed = false) hround hs ?_
  intro s p s' _ hs hadd
  rw [Graph.directed_addEdge hadd, hs]

/-- **`MoralGraph` is moralisation.**  It returns a pointer to an undirected graph with the
vertices of its argument, in which two vertices are adjacent if and only if one is a parent of
the other or they have a common child, and leaves the graphs there were as they were. -/
theorem Memory.moralGraph_moralizes {memory : Memory} {imm : ℕ} {g : Graph}
    (himm : memory[imm]? = some g) (hlabels : ∀ l ∈ g.labels, ' ' ∉ l) :
    ∃ (memory' : Memory) (ret : ℕ) (moral : Graph), moralGraph memory imm = some (memory', ret) ∧
      memory'[ret]? = some moral ∧ moral.directed = false ∧
      (∀ l, l ∈ moral.labels ↔ l ∈ g.labels) ∧
      (∀ u v, u ≠ v → (moral.HasEdge u v ∨ moral.HasEdge v u ↔
        g.HasEdge u v ∨ g.HasEdge v u ∨ ∃ c, g.HasEdge u c ∧ g.HasEdge v c)) ∧
      ∀ (p : ℕ) (other : Graph), memory[p]? = some other → memory'[p]? = some other := by
  obtain ⟨moral, F, hrun, hcons, hadj⟩ := g.consists_self.moralGraph hlabels
  refine ⟨memory ++ [moral], memory.length, moral, ?_, List.getElem?_concat_length,
    directed_moralGraph hrun, hcons.vertices, fun u v huv => ?_, fun p other hp => ?_⟩
  · rw [moralGraph_eq himm, hrun]
    rfl
  · rw [hcons.hasEdge_iff, hcons.hasEdge_iff, hadj u v huv]
    rfl
  · exact getElem?_append hp moral

/-- The calls that build two parents and their child. -/
def colliderOps : List Graph.Store.Op :=
  [.addVertex ['a'], .addVertex ['b'], .addVertex ['c'], .addEdge ['a'] ['c'],
    .addEdge ['b'] ['c']]

theorem Memory.moralGraph_moralizes_collider :
    ∃ (s : Graph.Store) (memory' : Memory) (ret : ℕ) (moral : Graph),
      colliderOps.foldlM Graph.Store.run (Graph.Store.create ['g'] true) = some s ∧
      moralGraph [Graph.create [] false, s.graph] 1 = some (memory', ret) ∧
      memory'[ret]? = some moral ∧ (moral.HasEdge ['a'] ['b'] ∨ moral.HasEdge ['b'] ['a']) ∧
      memory'[1]? = some s.graph := by
  have hbuilt : (colliderOps.foldlM Graph.Store.run (Graph.Store.create ['g'] true)).map
      (fun s => (s.graph.labels, s.graph.edgeList)) =
      some ([['c'], ['b'], ['a']], [Edge.create ['b'] ['c'], Edge.create ['a'] ['c']]) := by
    decide +kernel
  obtain ⟨s, hs, hcontent⟩ := Option.map_eq_some_iff.mp hbuilt
  obtain ⟨hlabels, hedges⟩ := Prod.mk.inj hcontent
  obtain ⟨memory', ret, moral, hrun, hret, -, -, hadj, hkept⟩ :=
    @moralGraph_moralizes [Graph.create [] false, s.graph] 1 s.graph rfl
      (by rw [hlabels]; decide)
  have hparent : ∀ p, p = ['a'] ∨ p = ['b'] → s.graph.HasEdge p ['c'] := by
    rintro p (rfl | rfl) <;> rw [Graph.hasEdge_iff, hedges] <;> decide
  exact ⟨s, memory', ret, moral, hs, hrun, hret,
    (hadj _ _ (by decide)).mpr (Or.inr (Or.inr ⟨['c'], hparent _ (Or.inl rfl),
      hparent _ (Or.inr rfl)⟩)), hkept 1 _ rfl⟩

end JunctionBox
