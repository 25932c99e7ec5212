/-
Reads whose chunks come from the network.

`Delivers` asks a store and a network to fail for the ids that are not
there. A call that runs into the peers of an unknown id need not come
back at all, so `Brings` asks for the ids in use only: a read within
them never gets to another one (`readWith_covers`), and the provider
keeps what it was brought (`Caching.readChunk_brought`).

Whether a chunk in use may fail to come is the proposition `fails`. What
comes is the chunk in any case.
-/
import Distfs.Data.FlatRead

namespace Distfs

/-- A request within the chunk `c` is answered by its slice, unless it
fails and sets no size. -/
def Sliced (fails : Prop) (c : Bytes) (of len : Nat) (r : ChunkReply) :
    Prop :=
  r = { err := .ok, readSize := some len, bytes := (c.drop of).take len }
    ∨ fails ∧ r.err ≠ .ok ∧ r.readSize = none

namespace DataProvider

variable {τ : Type} {rc : ReadChunk τ} {Inv : τ → Prop} {fails : Prop}
  {chunks : UInt32 → Option Bytes}

/-- A read of what the chunks hold asks for these chunks and no other
ones, and delivers it, unless one of them fails. -/
theorem readWith_covers (unset : Nat → Nat)
    (hwhole : ∀ id c, chunks id = some c → c.length = chunkSizeBytes)
    (hpresent : ∀ t id of len c, Inv t → of + len ≤ chunkSizeBytes →
      chunks id = some c →
      ∃ r t', rc t id of len = some (r, t') ∧ Inv t'
        ∧ Sliced fails c of len r) (bs : Bytes) :
    ∀ (a : Nat) (t : τ), Covers chunks a bs → Inv t →
      ∃ err out t', readWith rc unset t a bs.length = some (err, out, t')
        ∧ Inv t' ∧ (err = .ok ∧ out = bs ∨ fails ∧ err ≠ .ok) := by
  induction hlen : bs.length using Nat.strong_induction_on
    generalizing bs with
  | _ n ih =>
      intro a t hcovers hinv
      rcases Nat.eq_zero_or_pos n with rfl | hpos
      · rw [List.length_eq_zero_iff.1 hlen]
        exact ⟨.ok, [], t, readWith_zero unset t a, hinv, .inl ⟨rfl, rfl⟩⟩
      have hmod := Nat.mod_lt a chunkSizeBytes_pos
      generalize hk : min n (chunkSizeBytes - a % chunkSizeBytes) = k
      obtain ⟨c, hc, hslice⟩ := hcovers.slice (n := k) (by omega) (by omega)
        (by omega) hwhole
      obtain ⟨r, t', hr, hinv', hsliced⟩ :=
        hpresent t _ (a % chunkSizeBytes) k c hinv (by omega) hc
      unfold readWith
      rw [readFromWith, dif_pos hpos]
      simp only [hk, hr]
      rcases hsliced with rfl | ⟨hfails, herr, hunset⟩
      · obtain ⟨err, out, t'', hrest, hinv'', hout⟩ := ih (n - k) (by omega)
          (bs.drop k) (by rw [List.length_drop, hlen]) (a + k) t'
          (hcovers.drop k) hinv'
        -- what is left starts the next chunk, if there is anything left
        have hloop : readFromWith rc unset t'
            (UInt32.ofNat (a / chunkSizeBytes) + 1) ⟨0, chunkSizeBytes_pos⟩
            (n - k) = some (err, out, t'') := by
          rcases Nat.eq_zero_or_pos (n - k) with hzero | hmore
          · rw [hzero, readWith_zero] at hrest
            rw [hzero, readFromWith, dif_neg (Nat.lt_irrefl 0)]
            exact hrest
          · obtain ⟨hdiv, hstart⟩ := @next_chunk a
            rw [show chunkSizeBytes - a % chunkSizeBytes = k by omega]
              at hdiv hstart
            unfold readWith at hrest
            simp only [hdiv, hstart, UInt32.ofNat_add] at hrest
            exact hrest
        simp only [hslice, Option.getD_some, ne_eq, not_true_eq_false,
          if_false, hloop]
        refine ⟨err, _, t'', rfl, hinv'', hout.imp_left ?_⟩
        rintro ⟨hok, rfl⟩
        exact ⟨hok, List.take_append_drop k bs⟩
      · rw [hunset]
        split
        · exact ⟨_, _, t', rfl, hinv', .inr ⟨hfails, by simp⟩⟩
        · exact ⟨_, _, t', rfl, hinv', .inr ⟨hfails, herr⟩⟩

end DataProvider

namespace ChunkProvider

variable {σ : Type} {ops : ChunkOps σ}
  {client : UInt32 → σ → ErrorCode × σ} {ready : σ → Prop} {fails : Prop}
  {chunks : UInt32 → Option Bytes} {p : ChunkProvider σ}

/-- Store and network bring these chunks, unless they fail. -/
structure Brings (fails : Prop) (ops : ChunkOps σ)
    (client : UInt32 → σ → ErrorCode × σ) (ready : σ → Prop)
    (chunks : UInt32 → Option Bytes) : Prop where
  whole : ∀ id c, chunks id = some c → c.length = chunkSizeBytes
  fetched : ∀ s id c, ready s → chunks id = some c →
    ∃ x s', fetch ops client s id = some (x, s') ∧ ready s'
      ∧ (x = .ok c ∨ fails ∧ ∃ err, x = .error err ∧ err ≠ .ok)

/-- A chunk that is brought is kept as a valid entry, and one that is not
leaves none. -/
theorem Caching.load_brought (h : Caching ready chunks p)
    (heap : Nat → Mem) (hb : Brings fails ops client ready chunks)
    {id : UInt32} {c : Bytes} (hc : chunks id = some c) {offset len : Nat}
    (hfit : offset + len ≤ chunkSizeBytes) :
    ∃ r p', load ops client heap p id offset len = some (r, p')
      ∧ Caching ready chunks p' ∧ Sliced fails c offset len r := by
  obtain ⟨x, s', hfetch, hready, hx⟩ := hb.fetched p.store id c h.ready hc
  unfold load
  rcases hx with rfl | ⟨hfails, err, rfl, herr⟩
  · have hdata : ((heap p.allocs).write 0 c).read 0 c.length = c :=
      Mem.read_write_self _ 0 c
    have hcaching : Caching ready chunks { p.setEntry id (some
        { data := (heap p.allocs).write 0 c, len := c.length }) with
        store := s', allocs := p.allocs + 1 } := by
      refine h.entries hready (fun i e he _ => ?_) h.collector rfl
      have he' : (if i = id then some _ else p.entries i) = some e := he
      split at he'
      · next hi =>
        rw [Option.some.injEq] at he'
        rw [hi, ← he']
        exact .inr ⟨c, hc, rfl, hdata⟩
      · exact .inl he'
    obtain ⟨p', htouch, hcaching'⟩ := hcaching.touch id
    simp only [hfetch, htouch]
    refine ⟨_, p', rfl, hcaching', .inl ?_⟩
    exact copyOut_eq rfl hdata (hb.whole id c hc) hfit
  · simp only [hfetch]
    refine ⟨_, _, rfl, ?_, .inr ⟨hfails, herr, rfl⟩⟩
    refine h.entries hready (fun i e he _ => .inl ?_) h.collector rfl
    have he' : (if i = id then none else p.entries i) = some e := he
    split at he'
    · cases he'
    · exact he'

/-- A chunk in use comes from the cache, or is brought. -/
theorem Caching.readChunk_brought (h : Caching ready chunks p)
    (heap : Nat → Mem) (hb : Brings fails ops client ready chunks)
    {id : UInt32} {c : Bytes} (hc : chunks id = some c) {offset len : Nat}
    (hfit : offset + len ≤ chunkSizeBytes) :
    ∃ r p', readChunk ops client heap p id offset len = some (r, p')
      ∧ Caching ready chunks p' ∧ Sliced fails c offset len r := by
  have hbuffer := chunkSizeBytes_eq
  unfold readChunk
  rw [uint32_of_lt (by omega), if_neg (by omega)]
  cases he : p.entries id with
  | none => exact h.load_brought heap hb hc hfit
  | some e =>
      simp only
      split
      · next hpos =>
        obtain ⟨c', hc', hlen, hdata⟩ := h.cached id e he hpos
        rw [hc, Option.some.injEq] at hc'
        subst hc'
        obtain ⟨p', htouch, hcaching'⟩ := h.touch id
        rw [htouch]
        refine ⟨_, p', rfl, hcaching', .inl ?_⟩
        exact copyOut_eq hlen hdata (hb.whole id c hc) hfit
      · exact h.load_brought heap hb hc hfit

/-- `DataProvider::read` of what the chunks hold. -/
theorem Brings.read (hb : Brings fails ops client ready chunks)
    (heap : Nat → Mem) (unset : Nat → Nat) {a : Nat} {bs : Bytes}
    (hcovers : DataProvider.Covers chunks a bs)
    (h : Caching ready chunks p) :
    ∃ err out p', DataProvider.read ops client heap unset p a bs.length
        = some (err, out, p')
      ∧ Caching ready chunks p'
      ∧ (err = .ok ∧ out = bs ∨ fails ∧ err ≠ .ok) := by
  rw [DataProvider.read_eq_readWith]
  exact DataProvider.readWith_covers unset hb.whole
    (fun p id of len c hp hfit hc => hp.readChunk_brought heap hb hc hfit)
    bs a p hcovers h

end ChunkProvider

end Distfs
