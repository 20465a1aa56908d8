import Mathlib.Algebra.Order.BigOperators.Group.List
import Mathlib.Algebra.Order.Group.Nat
import Mathlib.Data.List.TakeWhile
import Rabin.Lib.Handles
import Rabin.Lib.Lts
import Rabin.Lib.Reads

/-!
# The request loops of `hrd` and `psb`

Up to the response the bodies of both loops are the same text: open a socket for the next proxy, accept a
connection, `read` once into a buffer of 1000 bytes, connect, and `write` as much of the buffer as `strlen`
says. The first half is about the bytes that come out at the far end, the second about the handles that are
open when control is back at the top.
-/

namespace Rabin
open Reads Handles

/-! ### The bytes of a request -/

/-- Bytes on their way, in the pieces that the reads of the other side meet. -/
structure Delivery (bs : List UInt8) where
  pieces : List (List UInt8)
  nonempty : ∀ x ∈ pieces, x ≠ []
  flatten_eq : pieces.flatten = bs

namespace Delivery
variable {bs : List UInt8}

def conn (d : Delivery bs) : Conn UInt8 := d.pieces.map .piece

/-- All at once. -/
def whole (bs : List UInt8) : Delivery bs :=
  if h : bs = [] then ⟨[], fun _ hx => absurd hx List.not_mem_nil, by rw [h]; rfl⟩
  else ⟨[bs], fun x hx => by rwa [List.mem_singleton.1 hx], by simp⟩

end Delivery

/-- `strlen(buffer)`, `none` if it scans past the buffer. -/
def strlen (buffer : List UInt8) : Option ℕ := buffer.findIdx? (· = 0)

/-- `bzero` and one `read`. -/
def readBuffer (size : ℕ) (c : Conn UInt8) : List UInt8 :=
  let got := (read size c).1.getD []
  got ++ List.replicate (size - got.length) 0

/-- What is written to the next proxy, `none` if `strlen` scans past the buffer. -/
def forwardRequest (size : ℕ) (c : Conn UInt8) : Option (List UInt8) :=
  (strlen (readBuffer size c)).map fun n => (readBuffer size c).take n

def Hrd.forwardRequest (c : Conn UInt8) : Option (List UInt8) := Rabin.forwardRequest 1000 c

def Psb.forwardRequest (c : Conn UInt8) : Option (List UInt8) := Rabin.forwardRequest 1000 c

/-- What the one read of a delivery takes. -/
def Delivery.first {bs : List UInt8} (d : Delivery bs) (size : ℕ) : List UInt8 := (d.pieces.headD []).take size

variable {size : ℕ} {bs req : List UInt8}

theorem Delivery.first_isPrefix (d : Delivery bs) (size : ℕ) : d.first size <+: bs := by
  have hflat := d.flatten_eq
  unfold Delivery.first
  cases hp : d.pieces with
  | nil => exact (List.take_prefix _ _).trans List.nil_prefix
  | cons x xs =>
    rw [← hflat, hp]
    exact (List.take_prefix size x).trans (List.prefix_append x xs.flatten)

theorem Delivery.first_eq_iff (d : Delivery bs) : d.first size = bs ↔ bs.length ≤ size ∧ d.pieces.length ≤ 1 := by
  have hflat := d.flatten_eq
  have hne := d.nonempty
  unfold Delivery.first
  match hp : d.pieces with
  | [] =>
    rw [hp] at hflat
    subst hflat
    simp
  | [x] =>
    rw [hp, List.flatten_singleton] at hflat
    subst hflat
    simp
  | x :: y :: ys =>
    have hy : 0 < y.length := List.length_pos_iff.2 (hne y (by rw [hp]; simp))
    rw [hp] at hflat
    constructor
    · intro h
      have hlen := congrArg List.length h
      rw [← hflat, List.headD_cons, List.length_take, List.flatten_cons, List.flatten_cons, List.length_append,
        List.length_append] at hlen
      omega
    · rintro ⟨-, h⟩
      exact absurd h (by simp)

theorem read_conn (d : Delivery bs) : (Reads.read size d.conn).1.getD [] = d.first size := by
  have hne := d.nonempty
  unfold Delivery.conn Delivery.first
  cases hp : d.pieces with
  | nil => simp [Reads.read]
  | cons x xs =>
    cases x with
    | nil => exact absurd rfl (hne [] (by rw [hp]; exact List.mem_cons_self))
    | cons b x =>
      rw [List.map_cons, Reads.read]
      split
      · rename_i hlt
        exact (List.take_of_length_le hlt).symm
      · rfl

theorem take_strlen (got : List UInt8) (k : ℕ) :
    (strlen (got ++ List.replicate k 0)).map ((got ++ List.replicate k 0).take ·) =
      if 0 ∈ got ∨ 0 < k then some (got.takeWhile (· ≠ 0)) else none := by
  induction got with
  | nil => cases k <;> simp [strlen, List.replicate_succ, List.findIdx?_cons]
  | cons b got ih =>
    by_cases hb : b = 0
    · simp [strlen, List.findIdx?_cons, hb]
    · have hmem : (0 ∈ b :: got ∨ 0 < k) ↔ (0 ∈ got ∨ 0 < k) := by simp [Ne.symm hb]
      have hstr : strlen (b :: got ++ List.replicate k 0) = (strlen (got ++ List.replicate k 0)).map (· + 1) := by
        simp [strlen, List.findIdx?_cons, hb]
      have htake : (strlen (b :: got ++ List.replicate k 0)).map ((b :: got ++ List.replicate k 0).take ·) =
          ((strlen (got ++ List.replicate k 0)).map ((got ++ List.replicate k 0).take ·)).map (b :: ·) := by
        rw [hstr, Option.map_map, Option.map_map]
        rfl
      rw [htake, ih]
      simp only [hmem]
      split <;> simp [hb]

theorem forwardRequest_eq (d : Delivery bs) :
    forwardRequest size d.conn =
      if 0 ∈ d.first size ∨ (d.first size).length < size then some ((d.first size).takeWhile (· ≠ 0)) else none := by
  have hpos : 0 < size - (d.first size).length ↔ (d.first size).length < size := Nat.sub_pos_iff_lt
  unfold forwardRequest readBuffer
  simp only [read_conn, take_strlen, hpos]

theorem forwardRequest_some {w : List UInt8} (d : Delivery bs) (h : forwardRequest size d.conn = some w) :
    w <+: d.first size ∧ (∀ b ∈ w, b ≠ 0) ∧ (0 ∈ d.first size ∨ (d.first size).length < size) := by
  rw [forwardRequest_eq] at h
  split at h
  · rename_i hc
    cases h
    refine ⟨List.takeWhile_prefix _, fun b hb => ?_, hc⟩
    simpa using List.mem_takeWhile_imp hb
  · cases h

theorem forwardRequest_self_iff (d : Delivery bs) :
    forwardRequest size d.conn = some bs ↔ (∀ b ∈ bs, b ≠ 0) ∧ bs.length < size ∧ d.pieces.length ≤ 1 := by
  constructor
  · intro h
    obtain ⟨hpre, hnul, hroom⟩ := forwardRequest_some d h
    have hfirst : d.first size = bs :=
      (d.first_isPrefix size).eq_of_length_le hpre.length_le
    rw [hfirst] at hroom
    exact ⟨hnul, hroom.resolve_left fun h0 => hnul 0 h0 rfl, d.first_eq_iff.1 hfirst |>.2⟩
  · rintro ⟨hnul, hlen, hone⟩
    have hfirst := d.first_eq_iff.2 ⟨Nat.le_of_lt hlen, hone⟩
    rw [forwardRequest_eq, hfirst, if_pos (.inr hlen), List.takeWhile_eq_self_iff.2]
    intro b hb
    simpa using hnul b hb

/-- What `psb` writes to the upstream proxy is the request exactly if it has no NUL, leaves the last byte of the
buffer free, and comes in one piece at both hops. -/
theorem request_forwarded_iff (d : Delivery req) (net : ∀ bs, Delivery bs) :
    (∃ w, Hrd.forwardRequest d.conn = some w ∧ Psb.forwardRequest (net w).conn = some req) ↔
      (∀ b ∈ req, b ≠ 0) ∧ req.length < 1000 ∧ d.pieces.length ≤ 1 ∧ (net req).pieces.length ≤ 1 := by
  constructor
  · rintro ⟨w, h₁, h₂⟩
    have hw := (forwardRequest_some d h₁).1.trans (d.first_isPrefix 1000)
    have hreq := (forwardRequest_some (net w) h₂).1.trans ((net w).first_isPrefix 1000)
    obtain rfl : w = req := hw.eq_of_length_le hreq.length_le
    obtain ⟨h3, h4, h5⟩ := (forwardRequest_self_iff d).1 h₁
    exact ⟨h3, h4, h5, ((forwardRequest_self_iff (net w)).1 h₂).2.2⟩
  · rintro ⟨h1, h2, h3, h4⟩
    exact ⟨req, (forwardRequest_self_iff d).2 ⟨h1, h2, h3⟩, (forwardRequest_self_iff (net req)).2 ⟨h1, h2, h4⟩⟩

/-- "GE" comes to `hrd` in two pieces. -/
theorem split_request :
    ∃ d : Delivery [71, 69], Hrd.forwardRequest d.conn = some [71] ∧
      Psb.forwardRequest (Delivery.whole [71]).conn = some [71] :=
  ⟨⟨[[71], [69]], by decide, rfl⟩, by decide, by decide⟩

/-! ### What is sent back if a request does not go through -/

def page (s : String) : List UInt8 := s.toList.map Char.toUInt8

def couldNotConnect : List UInt8 := (page "<html><h1> Could not connect to the proxy </h1></html>").take 54

def couldNotWrite : List UInt8 := (page "<html><h1> Could not write to the proxy </h1></html>").take 52

/-! ### The handles of a request -/

/-- One time through `while(1)`, with what the calls return. Where a call ends the program if it fails, it does
not fail. -/
structure Pass where
  proxySockFd : ℕ
  newsockfd : ℕ
  connected : Bool
  /-- the return value of `write` -/
  n : ℤ

/-- In `hrd` the response comes in rounds: the handle of the file that `fopen` returned, and the value of
`blocks_recvd`. -/
structure Hrd.Pass extends Rabin.Pass where
  rounds : List (ℕ × ℕ)

/-- The handles open at the top of the loop, from one time to the next. -/
def serve (respond : Finset ℕ → Option (Finset ℕ)) (s : Finset ℕ) (o : Pass) : Option (Finset ℕ) := do
  let s ← acquire s o.proxySockFd
  let s ← acquire s o.newsockfd
  if !o.connected then
    -- `close(newsockfd); continue;`
    pure (release s o.newsockfd)
  else if o.n ≤ 0 then
    pure s
  else
    let s ← respond s
    pure (release (release s o.proxySockFd) o.newsockfd)

/-- `do { ... } while (blocks_recvd > 1)`: `none` if these are not the rounds of one response. -/
def Hrd.receiveRounds : List (ℕ × ℕ) → Finset ℕ → Option (Finset ℕ)
  | [], _ => none
  | (tmp, blocksRecvd) :: rounds, s => do
    let s ← acquire s tmp
    if 1 < blocksRecvd then receiveRounds rounds s
    else if rounds = [] then pure s
    else none

def Hrd.pass (s : Finset ℕ) (o : Hrd.Pass) : Option (Finset ℕ) := serve (receiveRounds o.rounds) s o.toPass

/-- The loop of `psb` around `recv` and `send_file` opens nothing. -/
def Psb.pass (s : Finset ℕ) (o : Pass) : Option (Finset ℕ) := serve some s o

/-- How many handles a pass leaves open whose response leaves `n` open. -/
def Pass.leaked (o : Pass) (n : ℕ) : ℕ := if !o.connected then 1 else if o.n ≤ 0 then 2 else n

theorem leaks_serve {respond : Finset ℕ → Option (Finset ℕ)} {s s' : Finset ℕ} {o : Pass} {n : ℕ}
    (hrespond : ∀ s s', respond s = some s' → Leaks s s' n) (h : serve respond s o = some s') :
    Leaks s s' (o.leaked n) := by
  obtain ⟨s₁, h1, h⟩ := Option.bind_eq_some_iff.1 h
  obtain ⟨s₂, h2, h⟩ := Option.bind_eq_some_iff.1 h
  unfold Pass.leaked
  split at h
  · rename_i hc
    cases h
    rw [if_pos hc]
    exact (leaks_acquire h1).trans (.release h2 (leaks_refl s₂))
  · rename_i hc
    rw [if_neg hc]
    split at h
    · rename_i hn
      cases h
      rw [if_pos hn]
      exact (leaks_acquire h1).trans (leaks_acquire h2)
    · rename_i hn
      obtain ⟨s₃, h3, h⟩ := Option.bind_eq_some_iff.1 h
      cases h
      rw [if_neg hn, release_comm]
      exact .release h1 (.release h2 (hrespond s₂ s₃ h3))

namespace Hrd

theorem leaks_receiveRounds {rounds : List (ℕ × ℕ)} {s s' : Finset ℕ} (h : receiveRounds rounds s = some s') :
    0 < rounds.length ∧ Leaks s s' rounds.length := by
  induction rounds generalizing s with
  | nil => cases h
  | cons r rounds ih =>
    obtain ⟨s₁, h1, h⟩ := Option.bind_eq_some_iff.1 h
    refine ⟨Nat.succ_pos _, ?_⟩
    rw [List.length_cons, Nat.add_comm]
    split at h
    · exact (leaks_acquire h1).trans (ih h).2
    · split at h
      · rename_i hr
        cases h
        rw [hr]
        exact leaks_acquire h1
      · cases h

theorem leaks_pass {s s' : Finset ℕ} {o : Pass} (h : pass s o = some s') :
    Leaks s s' (o.leaked (max 1 o.rounds.length)) :=
  leaks_serve (fun s s' hr => by
    obtain ⟨hpos, hl⟩ := leaks_receiveRounds hr
    rwa [Nat.max_eq_right hpos]) h

theorem leaked_pos (o : Pass) : 1 ≤ o.leaked (max 1 o.rounds.length) := by
  unfold Pass.leaked
  split
  · exact Nat.le_refl 1
  · split
    · decide
    · exact Nat.le_max_left ..

end Hrd

theorem Psb.leaks_pass {s s' : Finset ℕ} {o : Pass} (h : Psb.pass s o = some s') : Leaks s s' (o.leaked 0) := by
  refine leaks_serve (fun s s' hs => ?_) h
  cases hs
  exact leaks_refl _

/-- When the handles open at the top of the loop are those of the first time: for `hrd` never again, for `psb` if
every `connect` and every `write` succeeds. -/
theorem balanced_iff (s : Finset ℕ) :
    (∀ (passes : List Hrd.Pass) (s' : Finset ℕ), Lts.run Hrd.pass s passes = some s' →
      (s' = s ↔ passes = []) ∧ s.card + passes.length ≤ s'.card) ∧
    ∀ (passes : List Pass) (s' : Finset ℕ), Lts.run Psb.pass s passes = some s' →
      (s' = s ↔ ∀ o ∈ passes, o.connected = true ∧ 0 < o.n) := by
  constructor
  · intro passes s' hr
    have hl := leaks_run (fun o => o.leaked (max 1 o.rounds.length)) (fun _ _ _ => Hrd.leaks_pass) hr
    have hle : passes.length ≤ (passes.map fun o => o.leaked (max 1 o.rounds.length)).sum := by
      have h := List.length_le_sum_of_one_le (passes.map fun o => o.leaked (max 1 o.rounds.length)) (by
        intro i hi
        obtain ⟨o, -, rfl⟩ := List.mem_map.1 hi
        exact Hrd.leaked_pos o)
      rwa [List.length_map] at h
    refine ⟨?_, by rw [hl.card]; omega⟩
    rw [hl.eq_iff]
    constructor
    · intro h0
      exact List.length_eq_zero_iff.1 (by omega)
    · rintro rfl
      rfl
  · intro passes s' hr
    have hl := leaks_run (fun o => o.leaked 0) (fun _ _ _ => Psb.leaks_pass) hr
    rw [hl.eq_iff, List.sum_eq_zero_iff]
    simp only [List.forall_mem_map]
    refine forall₂_congr fun o _ => ?_
    unfold Pass.leaked
    cases o.connected with
    | false => simp
    | true => simp

/-- `hrd` relays a response of one piece, and `psb` cannot connect. -/
theorem handles_left_open :
    Lts.run Hrd.pass {0, 1, 2, 3, 4} [⟨⟨5, 6, true, 100⟩, [(7, 2), (8, 1)]⟩] = some {0, 1, 2, 3, 4, 7, 8} ∧
      Lts.run Psb.pass {0, 1, 2, 3, 4} [⟨5, 6, false, 0⟩] = some {0, 1, 2, 3, 4, 5} := by
  decide

end Rabin
