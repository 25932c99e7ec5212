/-
The queue loop takes every node of a tree once, each under its own path.

# The turns

`WalkInv` carries the walk: a turn replaces its item by the entries of the
item, of which a file has none, and writes to slack at most. `Turns` says
what the turns did, read from the last one backwards.

# The chunk builder

All that matters of it is that `add_file` comes back, with the file added
or found unreadable (`Serves`). The number that its state is indexed by
is how many bytes are still to come; a builder that never runs out of
room ignores it.
-/
import Distfs.Meta.QueueLoop
import Distfs.Meta.Visits

namespace Distfs

open SourceTree ChunkBuilder

namespace MetaFSBuilder

/-- The turns that empty the queue of these items: each takes a node that
an item covers, under its own path, and adds it exactly if it is a
regular file; each such node has one. -/
structure Turns (t : SourceTree) (openAt : Bytes → SourceFile)
    (root : Bytes) (items : List Item) (vs : List Visited) : Prop where
  node : ∀ v ∈ vs, (∃ x ∈ items, x.covers v.pos)
    ∧ ∃ path s, Placed usizeSize t path v.pos s
      ∧ v.path = root ++ slashed path
      ∧ v.added.isSome = s.isReg
  all : ∀ path p s, Placed usizeSize t path p s →
    (∃ x ∈ items, x.covers p) → ∃ v ∈ vs, v.pos = p
  once : (vs.map Visited.pos).Nodup
  len : addedLen openAt vs
    = (items.map fun x =>
        dataLen (sizeAt (sourceAt openAt root)) x.path x.tree).sum

variable {t : SourceTree} {m₀ m : Mem} {items : List Item} {x : Item}

theorem turns_nil {openAt : Bytes → SourceFile} {root : Bytes} :
    Turns t openAt root [] [] :=
  ⟨fun v hv => (by cases hv), fun _ _ _ _ ⟨x, hx, _⟩ => (by cases hx),
    List.nodup_nil, rfl⟩

-- ============================================================== one turn

/-- One turn: the node, then the other items and its entries. -/
theorem Turns.turn {openAt : Bytes → SourceFile} {root : Bytes}
    {vs : List Visited} {added : Option Reply}
    (hinv : WalkInv t m₀ (x :: items) m)
    (hadded : added.isSome = x.tree.isReg)
    (h : Turns t openAt root (items ++ x.children) vs) :
    Turns t openAt root (x :: items)
      ({ pos := x.pos, path := root ++ slashed x.path, added := added }
        :: vs) := by
  have hx := hinv.placed x List.mem_cons_self
  obtain ⟨hapart, -⟩ := List.pairwise_cons.1 hinv.apart
  have hnode : nodeSize = 72 := rfl
  have hextent := nodeSize_le_extent hx.within.1
  have hself : x.covers x.pos := ⟨Nat.le_refl _, by omega⟩
  refine ⟨fun v hv => ?_, fun path p s hplaced hcovered => ?_, ?_, ?_⟩
  · rcases List.mem_cons.1 hv with rfl | hv
    · exact ⟨⟨x, List.mem_cons_self, hself⟩, x.path, x.tree, hx, rfl, hadded⟩
    · obtain ⟨⟨y, hy, hcovers⟩, hplaced⟩ := h.node v hv
      refine ⟨?_, hplaced⟩
      rcases List.mem_append.1 hy with hy | hy
      · exact ⟨y, List.mem_cons_of_mem _ hy, hcovers⟩
      · exact ⟨x, List.mem_cons_self, covers_of_children hy hcovers⟩
  · obtain ⟨y, hy, hcovers⟩ := hcovered
    have hlater : (∃ z ∈ items ++ x.children, z.covers p) →
        ∃ v ∈ { pos := x.pos, path := root ++ slashed x.path, added := added }
          :: vs, v.pos = p := by
      intro hz
      obtain ⟨v, hv, hpos⟩ := h.all path p s hplaced hz
      exact ⟨v, List.mem_cons_of_mem _ hv, hpos⟩
    rcases List.mem_cons.1 hy with rfl | hy
    · rcases covered_by_children hplaced hx hcovers
        with ⟨-, hp, -⟩ | ⟨z, hz, hin⟩
      · exact ⟨_, List.mem_cons_self, hp.symm⟩
      · exact hlater ⟨z, List.mem_append_right _ hz, hin⟩
    · exact hlater ⟨y, List.mem_append_left _ hy, hcovers⟩
  · rw [List.map_cons, List.nodup_cons]
    refine ⟨fun hmem => ?_, h.once⟩
    obtain ⟨v, hv, hpos⟩ := List.mem_map.1 hmem
    have hpos' : v.pos = x.pos := hpos
    obtain ⟨⟨y, hy, hcovers⟩, -⟩ := h.node v hv
    rw [hpos'] at hcovers
    rcases List.mem_append.1 hy with hy | hy
    · exact hapart y hy x.pos hself hcovers
    · -- the entries start behind the node
      obtain ⟨i, e, -, rfl⟩ := mem_children.1 hy
      have hstart := @headEnd_le_childPos x.pos x.tree.attrs x.tree.kept i
      have hlo : childPos x.pos x.tree.attrs x.tree.kept i ≤ x.pos :=
        hcovers.1
      rw [headEnd] at hstart
      omega
  · have hlen := h.len
    rw [List.map_append, List.sum_append] at hlen
    rw [addedLen] at hlen ⊢
    rw [List.map_cons, List.sum_cons, List.map_cons, List.sum_cons, hlen]
    simp only [hadded]
    cases hreg : x.tree.isReg with
    | true =>
        rw [if_pos rfl, dataLen_of_isReg hreg, children_of_isReg hreg]
        rfl
    | false =>
        rw [if_neg (by simp), dataLen_of_children _ hreg]
        omega

-- ============================================================== the loop

/-- `add_file` comes back for every source whose reads succeed: the file
was added, or could not be opened. `Ok n` says that there is room for `n`
more bytes. -/
def Serves {σ : Type} (ops : ChunkOps σ) (Ok : Nat → ChunkBuilder σ → Prop) :
    Prop :=
  ∀ n b source, Ok (sourceLen source + n) b → Sound source →
    ∃ reply b', b.addFile ops source = some (reply, b') ∧ Ok n b'
      ∧ (reply.err = .ok ∨ reply.err = .notFound
        ∨ reply.err = .accessDenied)

/-- The queue after the turn of a node that is no regular file. -/
theorem queueAfter_children {size : Nat} (hfound : Found t)
    (hat : At m usizeSize t) (hsize : usizeSize + t.extent ≤ size)
    (hx : Placed usizeSize t x.path x.pos x.tree) (root : Bytes)
    (items : List Item) :
    queueAfter m size x.pos (root ++ slashed x.path)
        (items.map (Item.queued root))
      = some ((items ++ x.children).map (Item.queued root)) := by
  have hkind := ((hat.placed hx).kind hx.within.1).1
  rw [queueAfter, List.map_append]
  cases hdir : x.tree.isDir with
  | true =>
      rw [if_pos (by rw [hkind, hdir]),
        queueEntries_children hfound hat hsize hx hdir]
      rfl
  | false =>
      rw [if_neg (by rw [hkind, hdir]; simp), children_of_not_isDir hdir,
        List.map_nil, List.append_nil]

section Loop

variable {σ : Type} {ops : ChunkOps σ} {Ok : Nat → ChunkBuilder σ → Prop}
  {openAt : Bytes → SourceFile} {root : Bytes} {size : Nat}

/-- With as many turns as the queued nodes have bytes, the loop empties
its queue. -/
theorem visits_turns (hserves : Serves ops Ok) (hfound : Found t)
    (hat : At m₀ usizeSize t) (hsize : usizeSize + t.extent ≤ size)
    (hsound : ∀ path s, Named t path s → s.isReg = true →
      Sound (sourceAt openAt root path)) (fuel : Nat) :
    ∀ (items : List Item) (m : Mem) (b : ChunkBuilder σ),
      WalkInv t m₀ items m →
      Ok (items.map fun x => dataLen (sizeAt (sourceAt openAt root)) x.path
        x.tree).sum b →
      (items.map fun x => x.tree.extent).sum ≤ fuel →
      ∃ vs m' b',
        visits ops openAt size fuel (items.map (Item.queued root)) m b
            = some (vs, .ok, m', b')
          ∧ Ok 0 b' ∧ Turns t openAt root items vs := by
  induction fuel with
  | zero =>
      intro items m b h hb hfuel
      cases items with
      | nil => exact ⟨[], m, b, rfl, hb, turns_nil⟩
      | cons x items =>
          have hs := nodeSize_le_extent
            (h.placed x List.mem_cons_self).within.1
          have hnode : nodeSize = 72 := rfl
          rw [List.map_cons, List.sum_cons] at hfuel
          omega
  | succ fuel ih =>
      intro items m b h hb hfuel
      cases items with
      | nil => exact ⟨[], m, b, rfl, hb, turns_nil⟩
      | cons x items =>
          have hx := h.placed x List.mem_cons_self
          obtain ⟨hsup, -, hend⟩ := hx.within
          have hnode : nodeSize = 72 := rfl
          have hextent := nodeSize_le_extent hsup
          have hchildren := children_extent hsup
          rw [List.map_cons, List.sum_cons] at hfuel hb
          -- the records are still there, so the node is of its tree's kind
          have hat' : At m usizeSize t :=
            hat.congr fun a _ _ ha => (h.frame a ha).symm
          obtain ⟨-, hisReg⟩ := (hat'.placed hx).kind hsup
          have hin : ¬ size < x.pos + nodeSize := by omega
          rw [List.map_cons, Item.queued]
          cases hreg : x.tree.isReg with
          | true =>
              rw [dataLen_of_isReg hreg] at hb
              obtain ⟨reply, b', hadd, hb', hgoes⟩ :=
                hserves _ b _ hb (hsound _ _ hx.named hreg)
              have hnext : WalkInv t m₀ items (answered m x.pos reply) := by
                unfold answered
                split_ifs
                · exact h.tail.setFile hx hreg _ _
                · exact h.tail.setFile hx hreg _ _
              obtain ⟨us, m', b'', hrest, hb'', hus⟩ :=
                ih items _ b' hnext hb' (by omega)
              refine ⟨_, m', b'', (visits_reg hin (hisReg.trans hreg)).2
                ⟨reply, b', hadd, .inl ⟨hgoes, us, rfl, hrest⟩⟩, hb'',
                .turn h hreg.symm ?_⟩
              rw [children_of_isReg hreg, List.append_nil]
              exact hus
          | false =>
              rw [dataLen_of_children _ hreg, Nat.add_comm, ← List.sum_append,
                ← List.map_append] at hb
              obtain ⟨us, m', b', hrest, hb', hus⟩ := ih _ m b
                (h.next hfound) hb
                (by rw [List.map_append, List.sum_append]; omega)
              have hqueue :=
                queueAfter_children hfound hat' hsize hx root items
              exact ⟨_, m', b', (visits_other hin (hisReg.trans hreg)).2
                ⟨us, _, hqueue, rfl, hrest⟩, hb', .turn h hreg.symm hus⟩

end Loop

end MetaFSBuilder

end Distfs
