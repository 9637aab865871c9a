import JunctionBox.Graph.Content

/-!
# Graphs in memory

`Graph_Copy` and `MoralGraph` get a pointer to one graph and return a pointer to
another.  Here the graphs lie in memory, a `Graph *` is a position, a `Vertex *`
the position and the label, and every access reads the graph as it is by then.

A function that allocates one graph and writes to no other is the function on
that graph's value: `update_alloc` says so for a write, and `walk_eq` for a loop
that looks its next element up in the memory its body has left.  So `copy_eq`
returns what `Graph.copy` computes, behind the graphs there were.
-/

namespace JunctionBox

/-- At most `rounds` rounds of `for (x = fst; x != NULL; x = nxt(x)) body(x)`, where `nxt` sees
the state that `body` has left. -/
def walk {σ β : Type} (nxt : σ → β → Option β) (body : σ → β → Option σ) :
    ℕ → Option β → σ → Option σ
  | 0, _, s => some s
  | _ + 1, none, s => some s
  | rounds + 1, some b, s => do
      let s ← body s b
      walk nxt body rounds (nxt s b) s

/-- If the body never changes what `nxt` sees, the loop runs over what `visits` lists. -/
theorem walk_eq {σ τ β γ : Type} {nxt : σ → β → Option β} {body : σ → β → Option σ}
    {nxt' : γ → Option γ} {body' : τ → γ → Option τ} (embed : τ → σ) (f : γ → β)
    (good : γ → Prop) (hgood : ∀ c d, good c → nxt' c = some d → good d)
    (hnxt : ∀ u c, good c → nxt (embed u) (f c) = (nxt' c).map f)
    (hbody : ∀ u c, good c → body (embed u) (f c) = (body' u c).map embed) :
    ∀ (rounds : ℕ) (c : Option γ) (u : τ), (∀ d, c = some d → good d) →
      walk nxt body rounds (c.map f) (embed u) =
        ((visits nxt' rounds c).foldlM body' u).map embed := by
  intro rounds
  induction rounds with
  | zero => exact fun _ _ _ => rfl
  | succ rounds ih =>
      intro c u hc
      cases c with
      | none => rfl
      | some c =>
          have hgoodc := hc c rfl
          rw [Option.map_some, walk, visits, List.foldlM_cons, hbody u c hgoodc]
          cases hstep : body' u c with
          | none => rfl
          | some u' =>
              simp only [Option.map_some, Option.bind_eq_bind, Option.bind_some]
              rw [hnxt u' c hgoodc]
              exact ih _ u' fun d hd => hgood c d hgoodc hd

/-- The graphs in memory. -/
abbrev Memory := List Graph

namespace Memory

/-- Changes the graph at `this`. -/
def update (memory : Memory) (this : ℕ) (f : Graph → Option Graph) : Option Memory := do
  let g ← memory[this]?
  let g' ← f g
  return memory.set this g'

/-- `Graph_Create`, with the pointer it returns. -/
def create (memory : Memory) (name : CString) (directed : Bool) : Memory × ℕ :=
  (memory ++ [Graph.create name directed], memory.length)

/-- `Graph_SetDirected`. -/
def setDirected (memory : Memory) (this : ℕ) (setting : Bool) : Option Memory :=
  update memory this fun g => some (g.setDirected setting)

/-- `Graph_AddVertex`. -/
def addVertex (memory : Memory) (g : ℕ) (name : CString) : Option Memory :=
  update memory g fun g => some (g.addVertex name)

/-- `Graph_AddEdge`. -/
def addEdge (memory : Memory) (g : ℕ) (src sink : CString) : Option Memory :=
  update memory g fun g => g.addEdge src sink

/-- `Graph_GetNxtVertex`. -/
def getNxtVertex (g : ℕ) (memory : Memory) (v : CString) : Option CString := do
  let g ← memory[g]?
  let v ← g.getVertex v
  let next ← g.getNxtVertex v
  return next.label

/-- `Graph_GetNxtParent`. -/
def getNxtParent (g : ℕ) (v : CString) (memory : Memory) (last : CString) : Option CString := do
  let g ← memory[g]?
  let v ← g.getVertex v
  g.getNxtParent v last

/-- The round of `Graph_Copy` for one parent. -/
def copyParent (fresh : ℕ) (cur : CString) (memory : Memory) (parent : CString) :
    Option Memory := do
  let memory ← addVertex memory fresh parent
  addEdge memory fresh parent cur

/-- The round of `Graph_Copy` for one vertex. -/
def copyVertex (this fresh : ℕ) (memory : Memory) (cur : CString) : Option Memory := do
  let memory ← addVertex memory fresh cur
  let g ← memory[this]?
  let v ← g.getVertex cur
  walk (getNxtParent this cur) (copyParent fresh cur) v.inedges.size (Graph.getFstParent v) memory

/-- `Graph_Copy`. -/
def copy (memory : Memory) (this : ℕ) : Option (Memory × ℕ) := do
  let g ← memory[this]?
  let fresh := create memory g.name g.directed
  let memory ← walk (getNxtVertex this) (copyVertex this fresh.2) g.getNumVertices
    (g.getFstVertex.map Vertex.label) fresh.1
  return (memory, fresh.2)

section Lemmas

variable {memory : Memory} {this : ℕ} {g : Graph}

/-- The graphs there were are where they were. -/
theorem getElem?_append (h : memory[this]? = some g) (fresh : Graph) :
    (memory ++ [fresh])[this]? = some g := by
  rw [List.getElem?_append_left (List.getElem?_eq_some_iff.mp h).1, h]

/-- A write to the graph allocated last. -/
theorem update_alloc (memory : Memory) (fresh : Graph) (f : Graph → Option Graph) :
    update (memory ++ [fresh]) memory.length f = (f fresh).map fun g => memory ++ [g] := by
  unfold update
  rw [List.getElem?_concat_length]
  cases hg : f fresh with
  | none => simp [hg]
  | some g => simp [hg]

theorem getNxtVertex_eq (h : memory[this]? = some g) {v : Vertex}
    (hv : (v.label, v) ∈ g.vertices.first) :
    getNxtVertex this memory v.label = (g.getNxtVertex v).map Vertex.label := by
  unfold getNxtVertex
  have hget : g.getVertex v.label = some v := (g.vertices.get_eq_some_iff v.label v).mpr hv
  simp only [h, hget, Option.bind_eq_bind, Option.bind_some]
  exact Option.map_eq_bind.symm

theorem getNxtParent_eq (h : memory[this]? = some g) {v : Vertex}
    (hv : (v.label, v) ∈ g.vertices.first) (last : CString) :
    getNxtParent this v.label memory last = g.getNxtParent v last := by
  unfold getNxtParent
  have hget : g.getVertex v.label = some v := (g.vertices.get_eq_some_iff v.label v).mpr hv
  simp only [h, hget, Option.bind_eq_bind, Option.bind_some]

/-- A vertex lies in the map under its label. -/
theorem mem_vertices_of_exists {w : Vertex} (h : ∃ key, (key, w) ∈ g.vertices.first) :
    (w.label, w) ∈ g.vertices.first := by
  obtain ⟨key, hmem⟩ := h
  rw [g.vertex_label _ hmem]
  exact hmem

/-- A loop over the vertices of a graph whose body writes to the graph allocated last. -/
theorem walk_vertices (h : memory[this]? = some g) {body : Memory → CString → Option Memory}
    {body' : Graph → Vertex → Option Graph}
    (hbody : ∀ fresh v, (v.label, v) ∈ g.vertices.first →
      body (memory ++ [fresh]) v.label = (body' fresh v).map fun g' => memory ++ [g'])
    (fresh : Graph) :
    walk (getNxtVertex this) body g.getNumVertices (g.getFstVertex.map Vertex.label)
        (memory ++ [fresh]) =
      (g.vertexLoop.foldlM body' fresh).map fun g' => memory ++ [g'] :=
  walk_eq (fun g' => memory ++ [g']) Vertex.label (fun v => (v.label, v) ∈ g.vertices.first)
    (fun _ _ _ hnext => mem_vertices_of_exists (Map.mem_of_getNext hnext))
    (fun fresh _ hv => getNxtVertex_eq (getElem?_append h fresh) hv) hbody _ _ _
    fun _ hfst => mem_vertices_of_exists (Map.mem_of_getFirst hfst)

/-- A loop over the parents of a vertex, likewise. -/
theorem walk_parents (h : memory[this]? = some g) {v : Vertex}
    (hv : (v.label, v) ∈ g.vertices.first) {body : Memory → CString → Option Memory}
    {body' : Graph → CString → Option Graph}
    (hbody : ∀ fresh parent,
      body (memory ++ [fresh]) parent = (body' fresh parent).map fun g' => memory ++ [g'])
    (fresh : Graph) :
    walk (getNxtParent this v.label) body v.inedges.size (Graph.getFstParent v)
        (memory ++ [fresh]) =
      ((g.parentLoop v).foldlM body' fresh).map fun g' => memory ++ [g'] := by
  have hnext : ∀ fresh last, True →
      getNxtParent this v.label (memory ++ [fresh]) last = (g.getNxtParent v last).map id :=
    fun fresh last _ => by
      rw [Option.map_id, id]
      exact getNxtParent_eq (getElem?_append h fresh) hv last
  have hwalk := walk_eq (fun g' => memory ++ [g']) id (fun _ => True) (fun _ _ _ _ => trivial)
    hnext (fun fresh parent _ => hbody fresh parent) v.inedges.size (Graph.getFstParent v) fresh
    fun _ _ => trivial
  rwa [Option.map_id] at hwalk

/-- The round for one vertex writes to the fresh graph only. -/
theorem copyVertex_eq (h : memory[this]? = some g) (fresh : Graph) {cur : Vertex}
    (hcur : (cur.label, cur) ∈ g.vertices.first) :
    copyVertex this memory.length (memory ++ [fresh]) cur.label =
      ((g.parentLoop cur).foldlM (fun (fresh : Graph) parent =>
        (fresh.addVertex parent).addEdge parent cur.label) (fresh.addVertex cur.label)).map
        fun g' => memory ++ [g'] := by
  have hget : g.getVertex cur.label = some cur :=
    (g.vertices.get_eq_some_iff cur.label cur).mpr hcur
  have hadd : addVertex (memory ++ [fresh]) memory.length cur.label =
      some (memory ++ [fresh.addVertex cur.label]) := update_alloc memory fresh _
  unfold copyVertex
  simp only [hadd, getElem?_append h, hget, Option.bind_eq_bind, Option.bind_some]
  refine walk_parents h hcur (fun fresh parent => ?_) _
  have hparent : addVertex (memory ++ [fresh]) memory.length parent =
      some (memory ++ [fresh.addVertex parent]) := update_alloc memory fresh _
  unfold copyParent
  rw [hparent]
  exact update_alloc memory _ _

/-- **`Graph_Copy`** allocates what `Graph.copy` computes and writes to nothing else. -/
theorem copy_eq (h : memory[this]? = some g) :
    copy memory this = g.copy.map fun fresh => (memory ++ [fresh], memory.length) := by
  unfold copy
  simp only [h, Option.bind_eq_bind, Option.bind_some]
  rw [show (create memory g.name g.directed).2 = memory.length from rfl,
    show (create memory g.name g.directed).1 = memory ++ [Graph.create g.name g.directed] from rfl,
    walk_vertices h fun fresh _ hv => copyVertex_eq h fresh hv]
  unfold Graph.copy
  rw [Option.bind_map]
  exact Option.map_eq_bind.symm

end Lemmas

end Memory

end JunctionBox
