/-
The queue loop of `create_chunks` visits every node of the image once
and fills in every regular file.

# The invariant

A queue entry stands for an `Item`: a node of the image, its path, and
the tree it was written for. The items cover disjoint parts of the image
(`apart`), and everything outside of them is settled: a regular file that
no item covers is filled in (`filled`), and its range of the address
space meets no other one's (`ranges`). The loop writes to slack only
(`frame`), so the records it walks on stay as `scan_dfs` left them. What
is still to be written fits (`room`). `WalkInv` is the part of this that
the walk itself needs.

# One turn

A regular file is written at the cursor and becomes settled. A directory
is replaced by its entries, which cover what it covered except for its
own records, where no regular file is. Each turn uses up bytes of the
image, so as many turns as the image has bytes are enough.
-/
import Distfs.Data.BuilderRefinement
import Distfs.Meta.CreateChunks
import Distfs.Meta.ScanDfs

namespace Distfs

open SourceTree ChunkBuilder

namespace MetaFSBuilder

/-- What a queue entry stands for. -/
structure Item where
  pos : Nat
  path : List Bytes
  tree : SourceTree

/-- The queue entry of an item. -/
def Item.queued (root : Bytes) (x : Item) : Nat × Bytes :=
  (x.pos, root ++ slashed x.path)

/-- The item covers the address. -/
def Item.covers (x : Item) (a : Nat) : Prop :=
  x.pos ≤ a ∧ a < x.pos + x.tree.extent

/-- The items of the entries `es` that start at `pos`. -/
def itemsFrom (path : List Bytes) : Nat → List (Bytes × SourceTree) → List Item
  | _, [] => []
  | pos, e :: es =>
      { pos := pos, path := path ++ [e.1], tree := e.2 }
        :: itemsFrom path (pos + e.2.extent) es

/-- The items of the entries of a directory. -/
def Item.children (x : Item) : List Item :=
  itemsFrom x.path (headEnd x.pos x.tree.attrs x.tree.kept) x.tree.kept

/-- An item is one of the kept entries, at its place. -/
theorem mem_itemsFrom {path : List Bytes} {es : List (Bytes × SourceTree)}
    {x : Item} : ∀ {pos : Nat}, x ∈ itemsFrom path pos es
      ↔ ∃ i e, es[i]? = some e ∧ x = { pos := pos + extentSum (es.take i)
                                       path := path ++ [e.1]
                                       tree := e.2 } := by
  induction es with
  | nil =>
      intro pos
      constructor
      · intro h
        cases h
      · intro ⟨i, e, hi, _⟩
        cases hi
  | cons e es ih =>
      intro pos
      rw [itemsFrom, List.mem_cons, ih]
      constructor
      · rintro (rfl | ⟨i, e', hi, rfl⟩)
        · exact ⟨0, e, rfl, rfl⟩
        · refine ⟨i + 1, e', hi, ?_⟩
          rw [Nat.add_assoc]
          rfl
      · rintro ⟨i, e', hi, rfl⟩
        cases i with
        | zero =>
            cases hi
            exact .inl rfl
        | succ i =>
            refine .inr ⟨i, e', hi, ?_⟩
            rw [Nat.add_assoc]
            rfl

/-- A child is one of the kept entries, at its place. -/
theorem mem_children {x y : Item} :
    y ∈ x.children
      ↔ ∃ i e, x.tree.kept[i]? = some e
        ∧ y = { pos := childPos x.pos x.tree.attrs x.tree.kept i
                path := x.path ++ [e.1], tree := e.2 } :=
  mem_itemsFrom

/-- Items that follow each other do not meet. -/
theorem apart_itemsFrom (path : List Bytes) (es : List (Bytes × SourceTree)) :
    ∀ pos, (itemsFrom path pos es).Pairwise
      fun x y => x.pos + x.tree.extent ≤ y.pos := by
  induction es with
  | nil => exact fun pos => .nil
  | cons e es ih =>
      intro pos
      refine .cons (fun y hy => ?_) (ih _)
      obtain ⟨i, e', -, rfl⟩ := mem_itemsFrom.1 hy
      exact Nat.le_add_right _ _

/-- A sum over the items is one over the entries. -/
theorem sum_itemsFrom (path : List Bytes) (g : List Bytes → SourceTree → Nat)
    (es : List (Bytes × SourceTree)) :
    ∀ pos, ((itemsFrom path pos es).map fun x => g x.path x.tree).sum
      = (es.map fun e => g (path ++ [e.1]) e.2).sum := by
  induction es with
  | nil => exact fun pos => rfl
  | cons e es ih =>
      intro pos
      rw [itemsFrom, List.map_cons, List.map_cons, List.sum_cons,
        List.sum_cons, ih]

/-- The entries of a node take fewer bytes than the node itself. -/
theorem children_extent {x : Item} (hsup : x.tree.supported = true) :
    (x.children.map fun y => y.tree.extent).sum + nodeSize
      ≤ x.tree.extent := by
  obtain ⟨pos, path, t⟩ := x
  cases hdir : t.isDir with
  | false =>
      rw [Item.children, kept_of_not_isDir hdir, Nat.add_comm]
      exact nodeSize_le_extent hsup
  | true =>
      have hsum := sum_itemsFrom path (fun _ t => t.extent) t.kept
        (headEnd pos t.attrs t.kept)
      rw [Item.children, hsum]
      cases t with
      | gone => cases hdir
      | node st xattrs target entries =>
          have hkept : (SourceTree.node st xattrs target entries).kept
              = sortedEntries entries := if_pos hdir
          have hextent := @extent_dir st xattrs target entries hdir 0
          rw [headEnd] at hextent
          simp only
          rw [hkept]
          omega

/-- A regular file has no children. -/
theorem children_of_isReg {x : Item} (hreg : x.tree.isReg = true) :
    x.children = [] := by
  rw [Item.children, kept_of_isReg hreg]
  rfl

theorem children_of_not_isDir {x : Item} (hdir : x.tree.isDir = false) :
    x.children = [] := by
  rw [Item.children, kept_of_not_isDir hdir]
  rfl

/-- The bytes of a node that is no regular file are those of its
entries. -/
theorem dataLen_of_children (sizeAt : List Bytes → Nat) {x : Item}
    (hreg : x.tree.isReg = false) :
    dataLen sizeAt x.path x.tree
      = (x.children.map fun y => dataLen sizeAt y.path y.tree).sum := by
  have hsum := sum_itemsFrom x.path (dataLen sizeAt) x.tree.kept
    (headEnd x.pos x.tree.attrs x.tree.kept)
  rw [Item.children, hsum]
  cases hdir : x.tree.isDir with
  | true => rw [dataLen_of_isDir hdir]
  | false =>
      rw [kept_of_not_isDir hdir]
      obtain ⟨pos, path, tree⟩ := x
      cases tree with
      | gone => rfl
      | node st xattrs target entries =>
          have hreg' : sIsReg st.mode.toNat = false := hreg
          have hdir' : sIsDir st.mode.toNat = false := hdir
          show dataLen sizeAt path (.node st xattrs target entries) = 0
          rw [dataLen, hreg', hdir']
          rfl

-- ================================================= reading the entries

/-- `std::string` of a pointer finds the string that is there. -/
theorem stringAt_of_cstr {m : Mem} {size a : Nat} {s : Bytes}
    (h : m.CStr a s) (h0 : 0 ∉ s) (hfit : a + (s.length + 1) ≤ size) :
    stringAt m size a = some s := by
  have hread : m.read a (size - a)
      = s ++ 0 :: m.read (a + (s.length + 1)) (size - a - (s.length + 1)) := by
    rw [show size - a = s.length + 1 + (size - a - (s.length + 1)) by omega,
      Mem.read_add, h, List.append_assoc]
    congr 2
    rw [Nat.add_sub_cancel_left]
    rfl
  have htake : (m.read a (size - a)).takeWhile (· ≠ 0) = s := by
    rw [hread, List.takeWhile_append_of_pos]
    · simp
    · intro b hb
      simpa using fun hb0 : b = 0 => h0 (hb0 ▸ hb)
  unfold stringAt
  rw [htake, if_pos (by omega)]

/-- The loop over the entries queues the items. -/
theorem queueEntries_spec {m : Mem} {off mode size : Nat} {xattrs : Xattrs}
    {es : List (Bytes × SourceTree)} (h : DirAt m off mode xattrs es)
    (hes : ∀ e ∈ es, 0 ∉ e.1 ∧ e.2.supported = true)
    (hfit : headEnd off xattrs es ≤ size) (root : Bytes)
    (path : List Bytes) (k : Nat) :
    ∀ i, i + k = es.length →
      queueEntries m size (direntsPos off xattrs) (root ++ slashed path) k i
        = some ((itemsFrom path (childPos off xattrs es i) (es.drop i)).map
            (Item.queued root)) := by
  have hhead : headEnd off xattrs es
      = direntsPos off xattrs + namesLen (es.map Prod.fst) := rfl
  have hnames := namesLen_eq (es.map Prod.fst)
  rw [List.length_map] at hnames
  induction k with
  | zero =>
      intro i hi
      rw [List.drop_eq_nil_of_le (by omega)]
      rfl
  | succ k ih =>
      intro i hi
      have hlt : i < es.length := by omega
      obtain ⟨e, he⟩ : ∃ e, es[i]? = some e :=
        ⟨_, List.getElem?_eq_getElem hlt⟩
      obtain ⟨h0, hsup⟩ := hes e (List.mem_of_getElem? he)
      have hi' : (es.map Prod.fst)[i]? = some e.1 := by
        rw [List.getElem?_map, he]
        rfl
      obtain ⟨-, hend, hstr⟩ := h.node.name i e.1 hi'
      have hchild := h.child i e he
      rw [if_pos hsup] at hchild
      have hdrop : es.drop i = e :: es.drop (i + 1) := by
        rw [List.drop_eq_getElem_cons hlt,
          (List.getElem?_eq_some_iff.1 he).2]
      unfold queueEntries
      rw [entrySize, if_pos (by omega),
        stringAt_of_cstr (hstr h0) h0 (by omega), ih (i + 1) (by omega),
        hchild, hdrop, itemsFrom, childPos_succ he]
      simp only [List.map_cons, Item.queued, slashed_concat,
        List.append_assoc]

-- ======================================================= the invariant

/-- The fields of the regular file at `p` say what the source delivers
for it: where in the file `f`, behind `lo`, it stands, or that there is
nothing. -/
structure Filled (m : Mem) (f : FlatFile) (lo : Nat) (source : SourceFile)
    (p : Nat) : Prop where
  some : ∀ content, delivered source = some content →
    Node.length m p = content.length
      ∧ f.Holds (Node.dataOffset m p) content
      ∧ lo ≤ Node.dataOffset m p
      ∧ Node.dataOffset m p + content.length ≤ f.cursor
  none : delivered source = none →
    Node.dataOffset m p = 2 ^ 64 - 1 ∧ Node.length m p = 0

/-- What `open` finds under a path below the root. -/
def sourceAt (openAt : Bytes → SourceFile) (root : Bytes)
    (path : List Bytes) : SourceFile :=
  openAt (root ++ slashed path)

/-- How many bytes the sources have. -/
def sizeAt (source : List Bytes → SourceFile) (path : List Bytes) : Nat :=
  sourceLen (source path)

/-- The node at `p` is the one of the regular file under the path. -/
def RegularAt (t : SourceTree) (path : List Bytes) (p : Nat) : Prop :=
  ∃ s, Placed usizeSize t path p s ∧ s.isReg = true

/-- The regular file at `p` is not covered by an item. -/
def Settled (t : SourceTree) (items : List Item) (path : List Bytes)
    (p : Nat) : Prop :=
  RegularAt t path p ∧ ∀ x ∈ items, ¬ x.covers p

/-- The state of the walk over the image of `t`, which was `m₀` before:
the items `items` are queued, the image is `m`. -/
structure WalkInv (t : SourceTree) (m₀ : Mem) (items : List Item) (m : Mem) :
    Prop where
  placed : ∀ x ∈ items, Placed usizeSize t x.path x.pos x.tree
  apart : items.Pairwise fun x y => ∀ a, x.covers a → ¬ y.covers a
  frame : ∀ a, ¬ Slack usizeSize t a → m a = m₀ a

/-- The state of the loop over the image of `t`, which was `m₀` before:
the items `items` are queued, the image is `m`, the chunks are `f`. -/
structure LoopInv (t : SourceTree) (source : List Bytes → SourceFile)
    (m₀ : Mem) (lo top : Nat) (items : List Item) (m : Mem) (f : FlatFile) :
    Prop where
  placed : ∀ x ∈ items, Placed usizeSize t x.path x.pos x.tree
  apart : items.Pairwise fun x y => ∀ a, x.covers a → ¬ y.covers a
  frame : ∀ a, ¬ Slack usizeSize t a → m a = m₀ a
  filled : ∀ path p, Settled t items path p → Filled m f lo (source path) p
  ranges : ∀ path p path' p', Settled t items path p →
    Settled t items path' p' → p ≠ p' →
    Node.dataOffset m p + Node.length m p ≤ Node.dataOffset m p'
      ∨ Node.dataOffset m p' + Node.length m p' ≤ Node.dataOffset m p
  cursor : lo ≤ f.cursor
  room : f.cursor
      + (items.map fun x => dataLen (sizeAt source) x.path x.tree).sum ≤ top

variable {t : SourceTree} {source : List Bytes → SourceFile} {m₀ m : Mem}
  {lo top : Nat} {items : List Item} {x : Item} {f : FlatFile}

/-- The part of the invariant that is about the walk. -/
theorem LoopInv.walk (h : LoopInv t source m₀ lo top items m f) :
    WalkInv t m₀ items m :=
  ⟨h.placed, h.apart, h.frame⟩

/-- Before the loop the root is queued. -/
theorem walkInv_start (hsup : t.supported = true) :
    WalkInv t m [{ pos := usizeSize, path := [], tree := t }] m := by
  refine ⟨fun x hx => ?_, List.pairwise_singleton _ _, fun _ _ => rfl⟩
  rw [List.mem_singleton.1 hx]
  exact .here usizeSize t hsup

/-- The root covers every node. -/
theorem loopInv_start (hsup : t.supported = true) (hlo : lo ≤ f.cursor)
    (hroom : f.cursor + dataLen (sizeAt source) [] t ≤ top) :
    LoopInv t source m lo top [{ pos := usizeSize, path := [], tree := t }]
      m f := by
  have hnone : ∀ path p,
      ¬ Settled t [{ pos := usizeSize, path := [], tree := t }] path p := by
    intro path p ⟨⟨s, hplaced, _⟩, hout⟩
    obtain ⟨hs, hlo, hhi⟩ := hplaced.within
    have hsize := nodeSize_le_extent hs
    have hnode : nodeSize = 72 := rfl
    refine hout _ (List.mem_singleton_self _) ⟨hlo, ?_⟩
    show p < usizeSize + t.extent
    omega
  obtain ⟨hplaced, hapart, hframe⟩ := @walkInv_start t m hsup
  exact ⟨hplaced, hapart, hframe, fun path p h => absurd h (hnone path p),
    fun path p path' p' h => absurd h (hnone path p), hlo, by simpa⟩

/-- What an item covers that is not the item itself is covered by its
entries. -/
theorem covered_by_children {path : List Bytes} {p : Nat} {s : SourceTree}
    (hplaced : Placed usizeSize t path p s)
    (hx : Placed usizeSize t x.path x.pos x.tree) (hcovers : x.covers p) :
    (path = x.path ∧ p = x.pos ∧ s = x.tree)
      ∨ ∃ y ∈ x.children, y.covers p := by
  obtain ⟨rest, rfl, hrest⟩ := hplaced.nested hx hcovers.1 hcovers.2
  cases rest with
  | nil =>
      obtain ⟨-, rfl, rfl⟩ := placed_nil_iff.1 hrest
      exact .inl ⟨List.append_nil _, rfl, rfl⟩
  | cons c rest =>
      obtain ⟨i, e, hi, -, hbelow⟩ := placed_cons_iff.1 hrest
      have hwithin := hbelow.within
      have hsize := nodeSize_le_extent hwithin.1
      have hnode : nodeSize = 72 := rfl
      refine .inr ⟨_, mem_children.2 ⟨i, e, hi, rfl⟩, hwithin.2.1, ?_⟩
      simp only
      omega

/-- The entries of an item are covered by it. -/
theorem covers_of_children {y : Item} (hy : y ∈ x.children) {a : Nat}
    (ha : y.covers a) : x.covers a := by
  obtain ⟨i, e, hi, rfl⟩ := mem_children.1 hy
  obtain ⟨hlo, hhi⟩ := @childPos_within x.pos i x.tree e hi
  have hhead : x.pos ≤ headEnd x.pos x.tree.attrs x.tree.kept := by
    rw [headEnd]
    omega
  obtain ⟨halo, hahi⟩ := ha
  simp only at halo hahi
  exact ⟨by omega, by omega⟩

/-- Where nothing is gone, the entries of a node are nodes. -/
theorem placed_children (hfound : Found t)
    (hx : Placed usizeSize t x.path x.pos x.tree) :
    ∀ y ∈ x.children, Placed usizeSize t y.path y.pos y.tree := by
  intro y hy
  obtain ⟨i, e, hi, rfl⟩ := mem_children.1 hy
  have hsup := (hfound _ _ hx.named e (List.mem_of_getElem? hi)).2
  exact hx.append (placed_cons_iff.2 ⟨i, e, hi, rfl, .here _ _ hsup⟩)

/-- A node is replaced by its entries. -/
theorem WalkInv.next (hfound : Found t) (h : WalkInv t m₀ (x :: items) m) :
    WalkInv t m₀ (items ++ x.children) m := by
  have hx := h.placed x List.mem_cons_self
  obtain ⟨hxs, hapart⟩ := List.pairwise_cons.1 h.apart
  refine ⟨fun y hy => ?_, List.pairwise_append.2 ⟨hapart, ?_, ?_⟩, h.frame⟩
  · rcases List.mem_append.1 hy with hy | hy
    · exact h.placed y (List.mem_cons_of_mem _ hy)
    · exact placed_children hfound hx y hy
  · refine (apart_itemsFrom _ _ _).imp fun {y z} hyz a hy hz => ?_
    obtain ⟨-, hhi⟩ := hy
    obtain ⟨hlo, -⟩ := hz
    omega
  · exact fun y hy z hz a ha haz =>
      hxs y hy a (covers_of_children hz haz) ha

/-- Once a node is replaced by its entries, the same files are settled,
and the node itself if it is a regular file. -/
theorem settled_of_expand {path : List Bytes} {p : Nat}
    (hx : Placed usizeSize t x.path x.pos x.tree)
    (h : Settled t (items ++ x.children) path p) :
    Settled t (x :: items) path p
      ∨ path = x.path ∧ p = x.pos ∧ x.tree.isReg = true := by
  obtain ⟨⟨s, hplaced, hs⟩, hout⟩ := h
  by_cases hcovers : x.covers p
  · rcases covered_by_children hplaced hx hcovers
      with ⟨hpath, hp, rfl⟩ | ⟨y, hy, hin⟩
    · exact .inr ⟨hpath, hp, hs⟩
    · exact absurd hin (hout y (List.mem_append_right _ hy))
  · refine .inl ⟨⟨s, hplaced, hs⟩, fun y hy => ?_⟩
    rcases List.mem_cons.1 hy with rfl | hy
    · exact hcovers
    · exact hout y (List.mem_append_left _ hy)

/-- A node that is no regular file is replaced by its entries. -/
theorem LoopInv.expand (hfound : Found t)
    (h : LoopInv t source m₀ lo top (x :: items) m f)
    (hreg : x.tree.isReg = false) :
    LoopInv t source m₀ lo top (items ++ x.children) m f := by
  have hx := h.placed x List.mem_cons_self
  have hsettled : ∀ path p, Settled t (items ++ x.children) path p →
      Settled t (x :: items) path p := by
    intro path p hp
    rcases settled_of_expand hx hp with hp | ⟨-, -, hs⟩
    · exact hp
    · rw [hreg] at hs
      cases hs
  obtain ⟨hplaced, happart, hframe⟩ := h.walk.next hfound
  refine ⟨hplaced, happart, hframe,
    fun path p hp => h.filled path p (hsettled path p hp),
    fun path p path' p' hp hp' =>
      h.ranges path p path' p' (hsettled path p hp) (hsettled path' p' hp'),
    h.cursor, ?_⟩
  have hroom := h.room
  rw [List.map_cons, List.sum_cons, dataLen_of_children _ hreg] at hroom
  rw [List.map_append, List.sum_append]
  omega

-- ==================================================== a regular file

/-- The two fields of a file leave the other bytes. -/
theorem setFile_outside {n offset length a : Nat}
    (h : a < n + 56 ∨ n + 72 ≤ a) : setFile m n offset length a = m a := by
  unfold setFile
  rw [Node.setLength_outside (by omega), Node.setDataOffset_outside (by omega)]

/-- The length that is set. -/
theorem length_setFile {n offset length : Nat} (h : length < 2 ^ 64) :
    Node.length (setFile m n offset length) n = length := by
  rw [setFile, Node.length_setLength, Nat.mod_eq_of_lt h]

/-- The offset that is set. -/
theorem dataOffset_setFile {n offset length : Nat} (h : offset < 2 ^ 64) :
    Node.dataOffset (setFile m n offset length) n = offset := by
  have hkeep : Node.dataOffset (setFile m n offset length) n
      = Node.dataOffset (Node.setDataOffset m n offset) n :=
    Mem.readLe_congr fun a hlo hhi => Node.setLength_outside (by omega)
  rw [hkeep, Node.dataOffset_setDataOffset, Nat.mod_eq_of_lt h]

/-- The fields of another node stay. -/
theorem fields_setFile {n p offset length : Nat}
    (h : p + 72 ≤ n ∨ n + 72 ≤ p) :
    Node.length (setFile m n offset length) p = Node.length m p
      ∧ Node.dataOffset (setFile m n offset length) p
        = Node.dataOffset m p :=
  ⟨Mem.readLe_congr fun a hlo hhi => setFile_outside (by omega),
    Mem.readLe_congr fun a hlo hhi => setFile_outside (by omega)⟩

/-- A regular file has no entries. -/
theorem WalkInv.tail (h : WalkInv t m₀ (x :: items) m) :
    WalkInv t m₀ items m :=
  ⟨fun y hy => h.placed y (List.mem_cons_of_mem _ hy),
    (List.pairwise_cons.1 h.apart).2, h.frame⟩

/-- Its fields are slack. -/
theorem WalkInv.setFile (h : WalkInv t m₀ items m)
    (hx : Placed usizeSize t x.path x.pos x.tree)
    (hreg : x.tree.isReg = true) (offset length : Nat) :
    WalkInv t m₀ items (setFile m x.pos offset length) := by
  have hnode : nodeSize = 72 := rfl
  refine ⟨h.placed, h.apart, fun a ha => ?_⟩
  rw [setFile_outside, h.frame a ha]
  by_contra hin
  exact ha ⟨x.path, x.pos, x.tree, hx, hreg, by omega, by omega⟩

/-- A file that is filled in stays so while others are written behind
it. -/
theorem Filled.put {src : SourceFile} {m' : Mem} {p : Nat} {bs : Bytes}
    (h : Filled m f lo src p)
    (hlength : Node.length m' p = Node.length m p)
    (hoffset : Node.dataOffset m' p = Node.dataOffset m p) :
    Filled m' (f.put bs) lo src p := by
  constructor
  · intro content hcontent
    obtain ⟨hlen, hholds, hlo, hhi⟩ := h.some content hcontent
    rw [hlength, hoffset, FlatFile.cursor_put]
    exact ⟨hlen, hholds.put (.inl hhi), hlo, by omega⟩
  · rw [hlength, hoffset]
    exact h.none

/-- The range of a file ends before the cursor, or is the empty one at
the end of the address space. -/
theorem Filled.range {src : SourceFile} {p : Nat} (h : Filled m f lo src p) :
    Node.dataOffset m p + Node.length m p ≤ f.cursor
      ∨ Node.dataOffset m p = 2 ^ 64 - 1 ∧ Node.length m p = 0 := by
  cases hdelivered : delivered src with
  | none => exact .inr (h.none hdelivered)
  | some content =>
      obtain ⟨hlen, -, -, hhi⟩ := h.some content hdelivered
      exact .inl (by omega)

/-- A file that is written now is filled in, and its range starts at the
cursor or at the end of all addresses. -/
theorem filled_setFile {src : SourceFile} {n offset length : Nat}
    {bs : Bytes} (hlo : lo ≤ f.cursor)
    (htop : f.cursor + sourceLen src < 2 ^ 64)
    (hlen : bs.length ≤ sourceLen src)
    (hsome : ∀ content, delivered src = some content →
      bs = content ∧ offset = f.cursor ∧ length = content.length)
    (hnone : delivered src = none → offset = 2 ^ 64 - 1 ∧ length = 0) :
    Filled (setFile m n offset length) (f.put bs) lo src n
      ∧ f.cursor ≤ Node.dataOffset (setFile m n offset length) n
      ∧ Node.dataOffset (setFile m n offset length) n
          + Node.length (setFile m n offset length) n ≤ 2 ^ 64 - 1 := by
  cases hdelivered : delivered src with
  | none =>
      obtain ⟨rfl, rfl⟩ := hnone hdelivered
      rw [dataOffset_setFile (by omega), length_setFile (by omega)]
      refine ⟨⟨fun content hc => ?_, fun _ => ?_⟩, by omega, by omega⟩
      · rw [hdelivered] at hc
        cases hc
      · exact ⟨dataOffset_setFile (by omega), length_setFile (by omega)⟩
  | some content =>
      obtain ⟨rfl, rfl, rfl⟩ := hsome content hdelivered
      rw [dataOffset_setFile (by omega), length_setFile (by omega)]
      refine ⟨⟨fun content' hc => ?_, fun hc => ?_⟩, by omega, by omega⟩
      · rw [hdelivered, Option.some.injEq] at hc
        subst hc
        rw [dataOffset_setFile (by omega), length_setFile (by omega),
          FlatFile.cursor_put]
        exact ⟨rfl, f.holds_put _, hlo, Nat.le_refl _⟩
      · rw [hdelivered] at hc
        cases hc

/-- A regular file is filled in. -/
theorem LoopInv.fill {bs : Bytes} {offset length : Nat}
    (h : LoopInv t source m₀ lo top (x :: items) m f)
    (hreg : x.tree.isReg = true) (htop : top < 2 ^ 64)
    (hlen : bs.length ≤ sourceLen (source x.path))
    (hsome : ∀ content, delivered (source x.path) = some content →
      bs = content ∧ offset = f.cursor ∧ length = content.length)
    (hnone : delivered (source x.path) = none →
      offset = 2 ^ 64 - 1 ∧ length = 0) :
    LoopInv t source m₀ lo top items (setFile m x.pos offset length)
      (f.put bs) := by
  have hnode : nodeSize = 72 := rfl
  have hx := h.placed x List.mem_cons_self
  have hroom := h.room
  rw [List.map_cons, List.sum_cons, dataLen_of_isReg hreg, sizeAt] at hroom
  obtain ⟨hfilled, hstart, hend⟩ :=
    @filled_setFile m lo f (source x.path) x.pos offset length bs h.cursor
      (by omega) hlen hsome hnone
  have hold : ∀ path p, Settled t items path p → p ≠ x.pos →
      Settled t (x :: items) path p
        ∧ Node.length (setFile m x.pos offset length) p = Node.length m p
        ∧ Node.dataOffset (setFile m x.pos offset length) p
          = Node.dataOffset m p := by
    intro path p hp hne
    obtain ⟨⟨s, hplaced, hs⟩, -⟩ := id hp
    refine ⟨?_, fields_setFile (hplaced.reg_apart hx hs hreg hne)⟩
    rw [← List.append_nil items, ← children_of_isReg hreg] at hp
    rcases settled_of_expand hx hp with hp | ⟨-, hp, -⟩
    · exact hp
    · exact absurd hp hne
  have hrange : ∀ path p, Settled t items path p → p ≠ x.pos →
      Node.dataOffset (setFile m x.pos offset length) p
          + Node.length (setFile m x.pos offset length) p
        ≤ Node.dataOffset (setFile m x.pos offset length) x.pos
      ∨ Node.dataOffset (setFile m x.pos offset length) x.pos
          + Node.length (setFile m x.pos offset length) x.pos
        ≤ Node.dataOffset (setFile m x.pos offset length) p := by
    intro path p hp hne
    obtain ⟨hp', hlength, hoffset⟩ := hold path p hp hne
    rw [hlength, hoffset]
    rcases (h.filled path p hp').range with hbefore | ⟨hlast, -⟩
    · exact .inl (by omega)
    · exact .inr (by omega)
  obtain ⟨hplaced, hapart, hframe⟩ :=
    h.walk.tail.setFile hx hreg offset length
  refine ⟨hplaced, hapart, hframe, fun path p hp => ?_,
    fun path p path' p' hp hp' hne => ?_, ?_, ?_⟩
  · by_cases heq : p = x.pos
    · obtain ⟨⟨s, hplaced, -⟩, -⟩ := hp
      have hsize := nodeSize_le_extent hx.within.1
      rcases covered_by_children hplaced hx ⟨by omega, by omega⟩
        with ⟨rfl, rfl, -⟩ | ⟨y, hy, -⟩
      · exact hfilled
      · rw [children_of_isReg hreg] at hy
        cases hy
    · obtain ⟨hp', hlength, hoffset⟩ := hold path p hp heq
      exact (h.filled path p hp').put hlength hoffset
  · by_cases heq : p = x.pos
    · subst heq
      exact (hrange path' p' hp' (Ne.symm hne)).symm
    · by_cases heq' : p' = x.pos
      · subst heq'
        exact hrange path p hp hne
      · obtain ⟨hold₁, hlength₁, hoffset₁⟩ := hold path p hp heq
        obtain ⟨hold₂, hlength₂, hoffset₂⟩ := hold path' p' hp' heq'
        rw [hlength₁, hoffset₁, hlength₂, hoffset₂]
        exact h.ranges path p path' p' hold₁ hold₂ hne
  · have hcursor := h.cursor
    rw [FlatFile.cursor_put]
    omega
  · rw [FlatFile.cursor_put]
    omega

-- ============================================================= the loop

/-- The head of a directory is within it. -/
theorem headEnd_le_extent {off : Nat} {s : SourceTree}
    (hdir : s.isDir = true) :
    headEnd off s.attrs s.kept ≤ off + s.extent := by
  cases s with
  | gone => cases hdir
  | node st xattrs target entries =>
      have hkept : (SourceTree.node st xattrs target entries).kept
          = sortedEntries entries := if_pos hdir
      rw [hkept, extent_dir hdir]
      exact Nat.le_add_right _ _

/-- The entries of a directory are queued. -/
theorem queueEntries_children {size : Nat} {root : Bytes}
    (hfound : Found t) (hat : At m usizeSize t)
    (hsize : usizeSize + t.extent ≤ size)
    (hx : Placed usizeSize t x.path x.pos x.tree)
    (hdir : x.tree.isDir = true) :
    queueEntries m size (Node.dataOffset m x.pos) (root ++ slashed x.path)
        (Node.length m x.pos) 0
      = some (x.children.map (Item.queued root)) := by
  obtain ⟨⟨mode, hrecords⟩, -⟩ := (hat.placed hx).records hdir
  have hwithin := hx.within
  have hhead := @headEnd_le_extent x.pos x.tree hdir
  rw [hrecords.node.dataOffset, hrecords.node.length, List.length_map]
  exact queueEntries_spec hrecords (hfound _ _ hx.named) (by omega) root
    x.path x.tree.kept.length 0 (Nat.zero_add _)

section Loop

/-- More turns change nothing once the queue is empty. -/
theorem createLoop_mono {σ : Type} {ops : ChunkOps σ}
    {openAt : Bytes → SourceFile} {size : Nat}
    {r : ErrorCode × Mem × ChunkBuilder σ} (k : Nat) (fuel : Nat) :
    ∀ (q : List (Nat × Bytes)) (m : Mem) (b : ChunkBuilder σ),
      createLoop ops openAt size fuel q m b = some r →
      createLoop ops openAt size (fuel + k) q m b = some r := by
  induction fuel with
  | zero =>
      intro q m b h
      cases q with
      | nil =>
          rw [createLoop] at h ⊢
          exact h
      | cons x q =>
          rw [createLoop] at h
          exact absurd h.symm (Option.some_ne_none r)
  | succ fuel ih =>
      intro q m b h
      cases q with
      | nil =>
          rw [createLoop] at h ⊢
          exact h
      | cons x q =>
          rw [createLoop] at h
          rw [Nat.add_right_comm, createLoop]
          by_cases hsize : size < x.1 + nodeSize
          · rw [if_pos hsize] at h
            exact absurd h.symm (Option.some_ne_none r)
          · rw [if_neg hsize] at h ⊢
            split at h
            · next hreg =>
              rw [if_pos hreg]
              split at h
              · exact absurd h.symm (Option.some_ne_none r)
              · split at h
                · next hok => rw [if_pos hok]; exact ih _ _ _ h
                · next hok =>
                  rw [if_neg hok]
                  simp only at h ⊢
                  split at h
                  · next herr => rw [if_pos herr]; exact ih _ _ _ h
                  · next herr => rw [if_neg herr]; exact h
            · next hreg =>
              rw [if_neg hreg]
              split at h
              · next hdir =>
                rw [if_pos hdir]
                split at h
                · exact absurd h.symm (Option.some_ne_none r)
                · exact ih _ _ _ h
              · next hdir =>
                rw [if_neg hdir]
                exact ih _ _ _ h

variable {σ : Type} {ops : ChunkOps σ} {ready : σ → Prop}
  {view : σ → UInt32 → Option Bytes} {openAt : Bytes → SourceFile}
  {root : Bytes} {size : Nat}
  (hf : ops.Faithful ready view fun id => id.toNat ≤ top / chunkSizeBytes)
  (htop : top ≤ 2 ^ 32 * chunkSizeBytes)
  (hfound : Found t) (hat : At m₀ usizeSize t)
  (hsize : usizeSize + t.extent ≤ size)

include hf htop in
/-- The turn of a regular file: its read is cut short after a failure, or
the loop goes on and the file is filled in. -/
theorem createLoop_file {fuel : Nat} {b : ChunkBuilder σ}
    (h : LoopInv t (sourceAt openAt root) m₀ lo top (x :: items) m f)
    (hrefines : Refines ready view top b f) (hreg : x.tree.isReg = true)
    (hin : ¬ size < x.pos + nodeSize)
    (hkind : sIsReg (Node.mode m x.pos) = true) (q : List (Nat × Bytes)) :
    (createLoop ops openAt size (fuel + 1) (x.queued root :: q) m b = none
        ∧ ¬ Sound (sourceAt openAt root x.path))
      ∨ ∃ m' b' f',
        createLoop ops openAt size (fuel + 1) (x.queued root :: q) m b
            = createLoop ops openAt size fuel q m' b'
          ∧ Refines ready view top b' f'
          ∧ LoopInv t (sourceAt openAt root) m₀ lo top items m' f' := by
  have hlast : top < 2 ^ 64 := by
    have := chunkSizeBytes_eq
    omega
  have hroom := h.room
  rw [List.map_cons, List.sum_cons, dataLen_of_isReg hreg, sizeAt] at hroom
  rw [Item.queued, createLoop, if_neg hin, if_pos hkind,
    show openAt (root ++ slashed x.path) = sourceAt openAt root x.path
      from rfl]
  rcases hrefines.addFile hf htop (sourceAt openAt root x.path) (by omega)
      hlast
    with ⟨hadd, hsound⟩ | ⟨reply, b', bs, hadd, hrefines', hlen, hsome, hnone⟩
  · rw [hadd]
    exact .inl ⟨rfl, hsound⟩
  · rw [hadd]
    simp only
    by_cases hok : reply.err = .ok
    · rw [if_pos hok]
      refine .inr ⟨_, b', _, rfl, hrefines', h.fill hreg hlast hlen ?_ ?_⟩
      · intro content hcontent
        obtain ⟨hbs, hreply⟩ := hsome content hcontent
        rw [hreply]
        exact ⟨hbs, rfl, rfl⟩
      · intro hdelivered
        rw [hok] at hnone
        rcases hnone hdelivered with herr | herr <;> cases herr
    · rw [if_neg hok]
      cases hdelivered : delivered (sourceAt openAt root x.path) with
      | some content =>
          rw [(hsome content hdelivered).2] at hok
          exact absurd rfl hok
      | none =>
          rw [if_pos (hnone hdelivered)]
          refine .inr ⟨_, b', _, rfl, hrefines', h.fill hreg hlast hlen ?_ ?_⟩
          · intro content hcontent
            rw [hdelivered] at hcontent
            cases hcontent
          · exact fun _ => ⟨rfl, rfl⟩

include hf htop hfound hat hsize in
/-- With as many turns as the queued nodes have bytes, the loop empties
its queue, unless the read of some file is cut short after a failure. -/
theorem createLoop_spec (fuel : Nat) :
    ∀ (items : List Item) (m : Mem) (b : ChunkBuilder σ) (f : FlatFile),
      LoopInv t (sourceAt openAt root) m₀ lo top items m f →
      Refines ready view top b f →
      (items.map fun x => x.tree.extent).sum ≤ fuel →
      (createLoop ops openAt size fuel (items.map (Item.queued root)) m b
            = none
          ∧ ∃ path s, Named t path s ∧ s.isReg = true
            ∧ ¬ Sound (sourceAt openAt root path))
        ∨ ∃ m' b' f',
          createLoop ops openAt size fuel (items.map (Item.queued root)) m b
              = some (.ok, m', b')
            ∧ Refines ready view top b' f'
            ∧ LoopInv t (sourceAt openAt root) m₀ lo top [] m' f' := by
  induction fuel with
  | zero =>
      intro items m b f h hrefines hfuel
      cases items with
      | nil => exact .inr ⟨m, b, f, rfl, hrefines, h⟩
      | cons x items =>
          have hs := nodeSize_le_extent
            (h.placed x List.mem_cons_self).within.1
          have hnode : nodeSize = 72 := rfl
          rw [List.map_cons, List.sum_cons] at hfuel
          omega
  | succ fuel ih =>
      intro items m b f h hrefines hfuel
      cases items with
      | nil => exact .inr ⟨m, b, f, rfl, hrefines, h⟩
      | cons x items =>
          have hx := h.placed x List.mem_cons_self
          obtain ⟨hsup, -, hend⟩ := hx.within
          have hnode : nodeSize = 72 := rfl
          have hextent := nodeSize_le_extent hsup
          rw [List.map_cons, List.sum_cons] at hfuel
          -- the records are still there, so the node is of its tree's kind
          have hat' : At m usizeSize t :=
            hat.congr fun a _ _ ha => (h.frame a ha).symm
          obtain ⟨hisDir, hisReg⟩ := (hat'.placed hx).kind hsup
          have hin : ¬ size < x.pos + nodeSize := by omega
          cases hreg : x.tree.isReg with
          | true =>
              rcases createLoop_file hf htop h hrefines hreg hin
                  (hisReg.trans hreg) (items.map (Item.queued root))
                with ⟨hnone, hsound⟩ | ⟨m', b', f', hturn, hrefines', hfilled⟩
              · exact .inl ⟨hnone, x.path, x.tree, hx.named, hreg, hsound⟩
              · rw [List.map_cons, hturn]
                exact ih items m' b' f' hfilled hrefines' (by omega)
          | false =>
              rw [List.map_cons, Item.queued, createLoop, if_neg hin,
                if_neg (by rw [hisReg, hreg]; simp)]
              have hchildren := children_extent hsup
              have hnext := ih (items ++ x.children) m b f
                (h.expand hfound hreg) hrefines
                (by rw [List.map_append, List.sum_append]; omega)
              rw [List.map_append] at hnext
              cases hdir : x.tree.isDir with
              | true =>
                  rw [if_pos (by rw [hisDir, hdir]),
                    queueEntries_children hfound hat' hsize hx hdir]
                  exact hnext
              | false =>
                  rw [children_of_not_isDir hdir, List.map_nil,
                    List.append_nil] at hnext
                  rw [if_neg (by rw [hisDir, hdir]; simp)]
                  exact hnext

end Loop

end MetaFSBuilder

end Distfs
