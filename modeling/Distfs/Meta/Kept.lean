/-
What a build leaves in a store that keeps what fits.

If all chunks that the build writes fit, the store with a spare beside it
(`Data.Fitting`) has the same run and never uses the spare. It is
faithful, so that the build leaves what it leaves in any faithful store.
-/
import Distfs.Data.Fitting
import Distfs.Meta.BuildLockstep
import Distfs.Meta.Gapless

namespace Distfs

open SourceTree ChunkBuilder DataProvider

namespace MetaFSBuilder

/-- What a build left does not depend on the builder it was left by. -/
theorem Leaves.withChunks {σ τ : Type} {chunks : UInt32 → Option Bytes}
    {t : SourceTree} {source : List Bytes → SourceFile} {r : Built σ}
    {b : ChunkBuilder τ} (h : Leaves chunks t source (r.withChunks b)) :
    Leaves chunks t source r :=
  ⟨h.err, h.size, h.fits, h.length, h.records, h.image, h.content,
    h.missing, h.apart, h.addressed, h.whole⟩

section Kept

variable {σ : Type} {ops : ChunkOps σ} {fit : Bytes → Prop}
  {ready : σ → Prop} {view : σ → UInt32 → Option Bytes} {top : Nat}
  {openAt : Bytes → SourceFile} {heap : Nat → Mem} {root : Bytes}
  {t : SourceTree} {s : σ} {buff : Mem} {fuel : Nat} {r : Built σ}

/-- A store with its copy in memory. -/
theorem spared_start (hready : ready s) (hempty : ∀ id, view s id = none) :
    ChunkOps.Spared ready view (some s, .empty) := by
  refine ⟨MemoryStore.ready_empty, ?_⟩
  rintro _ ⟨rfl⟩
  exact ⟨hready, funext hempty⟩

/-- A build whose chunks fit never uses the spare. -/
theorem spared_build [DecidablePred fit]
    (hbuild : build ops openAt fuel heap root t (new s buff) = some r)
    (hfit : ∀ b ∈ chunksWritten ops openAt fuel heap root t s buff, fit b) :
    ∃ m, build (ops.spared fit) openAt fuel heap root t
        (new (some s, .empty) buff)
      = some (r.withChunks
          (r.chunks.withStore (some r.chunks.store, m))) := by
  have hstep := build_lockstep (ChunkOps.Follows.spared ops fit)
    (build_noting hbuild)
  obtain ⟨⟨x, m⟩, hrun, hx⟩ := (hstep hfit).2 (some s, .empty) rfl
  obtain rfl : x = some r.chunks.store := hx
  exact ⟨m, hrun⟩

variable
  (hk : ops.Keeps fit ready view fun id => id.toNat ≤ top / chunkSizeBytes)
  (hfound : Found t) (hsup : t.supported = true)
  (hready : ready s) (hempty : ∀ id, view s id = none)
  (hbuild : build ops openAt fuel heap root t (new s buff) = some r)
  (hfit : ∀ b ∈ chunksWritten ops openAt fuel heap root t s buff, fit b)

include hk hfound hsup hready hempty hbuild hfit

/-- `leaves_of_build`, for chunks that fit. -/
theorem leaves_of_kept (htop : top ≤ 2 ^ 32 * chunkSizeBytes)
    (htotal : totalLen t (sourceAt openAt root) ≤ top) :
    ready r.chunks.store
      ∧ Leaves (view r.chunks.store) t (sourceAt openAt root) r := by
  classical
  obtain ⟨m, hrun⟩ := spared_build hbuild hfit
  obtain ⟨hspared, hleaves⟩ := leaves_of_build hk.spared htop hfound hsup
    htotal (spared_start hready hempty) (fun _ => rfl) hrun
  obtain ⟨hready', hview⟩ := hspared.store r.chunks.store rfl
  rw [hview]
  exact ⟨hready', hleaves.withChunks⟩

/-- `gapless_of_build`, for chunks that fit. -/
theorem gapless_of_kept (htop : top < 2 ^ 32 * chunkSizeBytes)
    (hsound : ∀ path s, Named t path s → s.isReg = true →
      Sound (sourceAt openAt root path))
    (htotal : totalLen t (sourceAt openAt root) = top) :
    r.err = .ok ∧ ready r.chunks.store
      ∧ ∀ id, (view r.chunks.store id).isSome
        ↔ id.toNat ≤ top / chunkSizeBytes := by
  classical
  obtain ⟨m, hrun⟩ := spared_build hbuild hfit
  obtain ⟨hok, hspared, hall⟩ := gapless_of_build hk.spared htop hfound hsup
    hsound htotal (spared_start hready hempty) (fun _ => rfl) hrun
  obtain ⟨hready', hview⟩ := hspared.store r.chunks.store rfl
  rw [hview]
  exact ⟨hok, hready', hall⟩

end Kept

end MetaFSBuilder

end Distfs
