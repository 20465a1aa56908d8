import Mathlib.Data.List.Basic
import Mathlib.Logic.Function.Basic

/-!
# Blocks and block maps

`struct block` and the `unordered_map<unsigned, block *>` that the server and the client each keep.
Both programs only ever store a block under its own number, and give it a buffer of exactly
`data_size` bytes: `Block` and `Blocks` carry these facts.
-/

namespace Rabin

structure Block where
  blockNum : ℕ
  dataSize : ℕ
  old : Bool
  data : List UInt8
  size_eq : data.length = dataSize
  deriving DecidableEq

/-- The map `blocks`; `get n` is `none` where `blocks.at(n)` throws. -/
@[ext] structure Blocks where
  get : ℕ → Option Block
  num_eq : ∀ {n b}, get n = some b → b.blockNum = n

namespace Block

/-- A block with the bytes `b`. -/
def ofBytes (num : ℕ) (old : Bool) (b : List UInt8) : Block := ⟨num, b.length, old, b, rfl⟩

def setOld (b : Block) : Block := { b with old := true }

@[ext] theorem ext' {a b : Block} (h1 : a.blockNum = b.blockNum) (h2 : a.old = b.old) (h3 : a.data = b.data) :
    a = b := by
  obtain ⟨_, _, _, _, ha⟩ := a
  obtain ⟨_, _, _, _, hb⟩ := b
  subst ha hb
  simp_all

end Block

namespace Blocks

def empty : Blocks := ⟨fun _ => none, fun h => nomatch h⟩

/-- `blocks[b->block_num] = b`. -/
def put (m : Blocks) (b : Block) : Blocks where
  get := Function.update m.get b.blockNum (some b)
  num_eq {n c} h := by
    by_cases hn : n = b.blockNum
    · subst hn; simp at h; rw [← h]
    · rw [Function.update_of_ne hn] at h; exact m.num_eq h

@[simp] theorem get_put_self (m : Blocks) (b : Block) : (m.put b).get b.blockNum = some b :=
  Function.update_self ..

theorem get_put_of_ne (m : Blocks) {b : Block} {n : ℕ} (h : n ≠ b.blockNum) : (m.put b).get n = m.get n :=
  Function.update_of_ne h ..

theorem put_put {m : Blocks} {b c : Block} (h : b.blockNum = c.blockNum) : (m.put b).put c = m.put c := by
  ext1
  simp only [put, h, Function.update_idem]

/-- The bytes held under each number, which is what the two sides have to agree on. -/
def cache (m : Blocks) (n : ℕ) : Option (List UInt8) := (m.get n).map Block.data

theorem cache_put (m : Blocks) (b : Block) : (m.put b).cache = Function.update m.cache b.blockNum (some b.data) := by
  funext n
  by_cases h : n = b.blockNum
  · subst h; simp [cache]
  · rw [Function.update_of_ne h, cache, get_put_of_ne m h, cache]

theorem cache_eq_some {m : Blocks} {n : ℕ} {d : List UInt8} (h : m.cache n = some d) :
    ∃ b, m.get n = some b ∧ b.blockNum = n ∧ b.data = d := by
  obtain ⟨b, hb, hd⟩ := Option.map_eq_some_iff.1 h
  exact ⟨b, hb, m.num_eq hb, hd⟩

theorem sizes_of_cache {m m' : Blocks} (h : m.cache = m'.cache) (n : ℕ) :
    (m.get n).map (fun b => (b.dataSize, b.data)) = (m'.get n).map (fun b => (b.dataSize, b.data)) := by
  have hpair (b : Block) : (b.dataSize, b.data) = (fun d => (d.length, d)) b.data := by rw [← b.size_eq]
  have hmap (m : Blocks) :
      (m.get n).map (fun b => (b.dataSize, b.data)) = (m.cache n).map fun d => (d.length, d) := by
    rw [cache, Option.map_map]
    exact congrArg (fun f => (m.get n).map f) (funext hpair)
  rw [hmap, hmap, h]

end Blocks

end Rabin
