import Rabin.Bridges
import Rabin.Lib.Proactor

/-!
# The handlers of a bridge and its pending operations

A bridge is what its pending asynchronous operations make of it: each handler starts the next ones, and between two of
its handlers any other may run. The operations read into `downstream_data_` and `upstream_data_` and write from
them, `async_write` in as many pieces as the socket takes. In every run at most one operation is pending for each
direction, so that no buffer is filled while it is written from, and what goes out is what came in
(`client_relays`, `server_relays`).
-/

namespace Rabin
open Proactor

/-- `unsigned char upstream_data_[max_data_length]` -/
structure DataBuffer where
  bytes : List UInt8
  length_eq : bytes.length = 8192

def DataBuffer.zero : DataBuffer := ⟨List.replicate 8192 0, List.length_replicate⟩

/-- The first bytes are overwritten. -/
def DataBuffer.fill (d : DataBuffer) (q : List UInt8) (h : q.length ≤ 8192) : DataBuffer :=
  ⟨q ++ d.bytes.drop q.length, by rw [List.length_append, List.length_drop, d.length_eq]; omega⟩

@[simp] theorem DataBuffer.take_fill (d : DataBuffer) {q : List UInt8} (h : q.length ≤ 8192) :
    (d.fill q h).bytes.take q.length = q := List.take_left

/-- A pending operation of a bridge. It is `ok` if the bridge was open when it was started; on a closed socket it
fails. A write has `sent` bytes of `len` behind it. -/
inductive Op
  | connect
  | readUp (ok : Bool)
  | writeDown (ok : Bool) (len sent : ℕ)
  | readDown (ok : Bool)
  | writeUp (ok : Bool) (len sent : ℕ)
  deriving DecidableEq

/-- What an operation is heard of. -/
inductive Completion
  | error
  | connected
  /-- a read comes back with the bytes `q` -/
  | read (q : List UInt8)
  /-- the socket takes `k` more bytes of a write -/
  | wrote (k : ℕ)
  /-- all is written -/
  | finished
  /-- all is written, and `receive_file` comes back with `numBlocks` and a file -/
  | received (numBlocks : UInt32) (file : List UInt8)
  deriving DecidableEq

inductive Direction
  | response
  | request
  deriving DecidableEq

/-- A connect stands for the first read of either direction. -/
def Op.use : Op → Direction → ℕ
  | connect, _ => 1
  | readUp _, d => if d = .response then 1 else 0
  | writeDown _ _ _, d => if d = .response then 1 else 0
  | readDown _, d => if d = .request then 1 else 0
  | writeUp _ _ _, d => if d = .request then 1 else 0

theorem Op.exclusive_connect : Exclusive use [.connect] := fun _ => Nat.le_refl 1

/-- Every operation is for one of the directions at least. -/
theorem Op.length_le_two {os : List Op} (h : Exclusive use os) : os.length ≤ 2 := by
  have hlen : os.length ≤ load use os .response + load use os .request := by
    clear h
    induction os with
    | nil => exact Nat.le_refl 0
    | cons o os ih =>
      rw [List.length_cons, load_cons, load_cons]
      cases o <;> simp [use] <;> omega
  have := h .response
  have := h .request
  omega

/-- What the bridges of both proxies have in common, and what has passed their sockets. -/
structure Ends where
  isOpen : Bool
  downstreamData : DataBuffer
  upstreamData : DataBuffer
  /-- read from the downstream socket -/
  taken : List UInt8
  /-- written to the upstream socket -/
  forwarded : List UInt8
  /-- written to the downstream socket -/
  written : List UInt8

namespace Ends

def new (down up : DataBuffer) : Ends := ⟨true, down, up, [], [], []⟩

def close (b : Ends) : Ends := { b with isOpen := false }

/-- `handle_downstream_read` and `handle_upstream_write`. -/
def handleRequest (b : Ends) : Op → Completion → Option (Ends × List Op)
  | .readDown _, .error => some (b.close, [])
  | .readDown true, .read q =>
    if h : Buffered q then
      some ({ b with downstreamData := b.downstreamData.fill q h.2, taken := b.taken ++ q },
        [.writeUp b.isOpen q.length 0])
    else none
  | .writeUp _ _ _, .error => some (b.close, [])
  | .writeUp true len sent, .wrote k =>
    if 1 ≤ k ∧ sent + k ≤ len then
      some ({ b with forwarded := b.forwarded ++ (b.downstreamData.bytes.drop sent).take k },
        [.writeUp true len (sent + k)])
    else none
  | .writeUp true len sent, .finished => if sent = len then some (b, [.readDown b.isOpen]) else none
  | _, _ => none

/-- A piece of an `async_write` to the downstream socket. -/
def writeDownstream (b : Ends) (len sent k : ℕ) : Option (Ends × List Op) :=
  if 1 ≤ k ∧ sent + k ≤ len then
    some ({ b with written := b.written ++ (b.upstreamData.bytes.drop sent).take k },
      [.writeDown true len (sent + k)])
  else none

section
variable {b b' : Ends} {o : Op} {e : Completion} {os : List Op}

theorem handleRequest_cases (h : b.handleRequest o e = some (b', os)) :
    (o.use .request = 1 ∧ o.use .response = 0 ∧ e = .error ∧ b' = b.close ∧ os = []) ∨
    (∃ q, ∃ hq : Buffered q, o = .readDown true ∧ e = .read q ∧ os = [.writeUp b.isOpen q.length 0] ∧
      b' = { b with downstreamData := b.downstreamData.fill q hq.2, taken := b.taken ++ q }) ∨
    (∃ len sent k, o = .writeUp true len sent ∧ e = .wrote k ∧ sent + k ≤ len ∧ os = [.writeUp true len (sent + k)] ∧
      b' = { b with forwarded := b.forwarded ++ (b.downstreamData.bytes.drop sent).take k }) ∨
    ∃ len, o = .writeUp true len len ∧ e = .finished ∧ os = [.readDown b.isOpen] ∧ b' = b := by
  unfold handleRequest at h
  split at h
  · cases h
    exact .inl ⟨rfl, rfl, rfl, rfl, rfl⟩
  · split at h
    · rename_i hq
      cases h
      exact .inr (.inl ⟨_, hq, rfl, rfl, rfl, rfl⟩)
    · cases h
  · cases h
    exact .inl ⟨rfl, rfl, rfl, rfl, rfl⟩
  · split at h
    · rename_i hk
      cases h
      exact .inr (.inr (.inl ⟨_, _, _, rfl, rfl, hk.2, rfl, rfl⟩))
    · cases h
  · split at h
    · rename_i hs
      cases h
      exact .inr (.inr (.inr ⟨_, by rw [hs], rfl, rfl, rfl⟩))
    · cases h
  · cases h

/-- The handlers of the requests leave the responses alone, and go on with requests. -/
theorem handleRequest_frame (h : b.handleRequest o e = some (b', os)) :
    o.use .request = 1 ∧ o.use .response = 0 ∧ b'.upstreamData = b.upstreamData ∧ b'.written = b.written ∧
      ∀ d, load Op.use os d ≤ o.use d := by
  rcases handleRequest_cases h with ⟨h1, h2, -, rfl, rfl⟩ | ⟨q, hq, rfl, -, rfl, rfl⟩ | ⟨_, _, _, rfl, -, -, rfl, rfl⟩ |
    ⟨_, rfl, -, rfl, rfl⟩
  · exact ⟨h1, h2, rfl, rfl, fun _ => Nat.zero_le _⟩
  all_goals exact ⟨rfl, rfl, rfl, rfl, fun _ => Nat.le_refl _⟩

theorem ne_received_of_handleRequest (h : b.handleRequest o e = some (b', os)) (n : UInt32) (file : List UInt8) :
    e ≠ .received n file := by
  rcases handleRequest_cases h with ⟨-, -, rfl, -⟩ | ⟨_, _, -, rfl, -⟩ | ⟨_, _, _, -, rfl, -⟩ | ⟨_, -, rfl, -⟩ <;>
    exact Completion.noConfusion

variable (b) in
/-- Where the bytes read from the downstream socket are. -/
def Requests : Op → Prop
  | .connect => b.forwarded = b.taken
  | .readDown _ => b.forwarded = b.taken
  | .writeUp _ len sent => b.forwarded ++ (b.downstreamData.bytes.take len).drop sent = b.taken ∧ sent ≤ len
  | _ => True

theorem requests_of_response (h : o.use .request = 0) : b.Requests o := by
  cases o with
  | connect => cases h
  | readUp _ => trivial
  | writeDown _ _ _ => trivial
  | readDown _ => cases h
  | writeUp _ _ _ => cases h

theorem Requests.congr (h : b.Requests o) (h1 : b'.forwarded = b.forwarded) (h2 : b'.taken = b.taken)
    (h3 : b'.downstreamData = b.downstreamData) : b'.Requests o := by
  cases o with
  | connect => exact h1.trans (h.trans h2.symm)
  | readUp _ => trivial
  | writeDown _ _ _ => trivial
  | readDown _ => exact h1.trans (h.trans h2.symm)
  | writeUp _ len sent =>
    refine ⟨?_, h.2⟩
    rw [h1, h2, h3]
    exact h.1

/-- A piece of a write moves from the buffer to the socket. -/
theorem append_piece (fwd data : List UInt8) {len sent k : ℕ} (h : sent + k ≤ len) :
    fwd ++ (data.drop sent).take k ++ (data.take len).drop (sent + k) = fwd ++ (data.take len).drop sent := by
  have hpiece : (data.drop sent).take k = ((data.take len).drop sent).take k := by
    rw [List.drop_take, List.take_take, Nat.min_eq_left (by omega)]
  rw [List.append_assoc, hpiece, ← List.drop_drop, List.take_append_drop]

theorem Requests.handleRequest (hb : b.forwarded <+: b.taken) (h : b.Requests o)
    (hh : b.handleRequest o e = some (b', os)) : b'.forwarded <+: b'.taken ∧ ∀ o' ∈ os, b'.Requests o' := by
  rcases handleRequest_cases hh with ⟨-, -, -, rfl, rfl⟩ | ⟨q, hq, rfl, -, rfl, rfl⟩ |
    ⟨len, sent, k, rfl, -, hk, rfl, rfl⟩ | ⟨len, rfl, -, rfl, rfl⟩
  · exact ⟨hb, fun o' ho' => nomatch ho'⟩
  · refine ⟨hb.trans (List.prefix_append ..), fun o' ho' => ?_⟩
    obtain rfl := List.mem_singleton.1 ho'
    refine ⟨?_, Nat.zero_le _⟩
    rw [DataBuffer.take_fill, List.drop_zero, show b.forwarded = b.taken from h]
  · have hpiece := (append_piece b.forwarded b.downstreamData.bytes hk).trans h.1
    refine ⟨⟨_, hpiece⟩, fun o' ho' => ?_⟩
    obtain rfl := List.mem_singleton.1 ho'
    exact ⟨hpiece, hk⟩
  · refine ⟨hb, fun o' ho' => ?_⟩
    obtain rfl := List.mem_singleton.1 ho'
    have hall := h.1
    rw [List.drop_of_length_le (List.length_take_le ..), List.append_nil] at hall
    exact hall

end

end Ends

/-- A bridge of `tcpproxy_client`. -/
structure ClientEnds extends Ends where
  /-- `c` with its `n` bytes -/
  c : Option (List UInt8)
  /-- the bytes of the files that `receive_file` came back with -/
  received : List UInt8

namespace ClientEnds

def new (down up : DataBuffer) : ClientEnds := ⟨.new down up, none, []⟩

/-- `handle_upstream_read`, which has read 0 bytes. The `memcpy` has to fit `upstream_data_`. -/
def handleUpstreamRead (b : ClientEnds) : Option (ClientEnds × List Op) :=
  match b.c with
  | none => some (b, [.writeDown b.isOpen 0 0])
  | some c =>
    if h : c.length ≤ 8192 then
      some ({ b with upstreamData := b.upstreamData.fill c h, c := none }, [.writeDown b.isOpen c.length 0])
    else none

/-- `handle_downstream_write` with what `receive_file` returns. -/
def handleDownstreamWrite (b : ClientEnds) (numBlocks : UInt32) (file : List UInt8) : ClientEnds × List Op :=
  let isOpen := b.isOpen && !decide (wrapInt numBlocks.toNat ≤ 1)
  ({ b with isOpen := isOpen, c := some file, received := b.received ++ file }, [.readUp isOpen])

def handle (b : ClientEnds) : Op → Completion → Option (ClientEnds × List Op)
  | .connect, .error => some ({ b with toEnds := b.close }, [])
  | .connect, .connected => some (b, [.readUp b.isOpen, .readDown b.isOpen])
  | .readUp false, .error => some ({ b with toEnds := b.close }, [])
  | .readUp true, .read [] => b.handleUpstreamRead
  | .writeDown _ _ _, .error => some ({ b with toEnds := b.close }, [])
  | .writeDown true len sent, .wrote k =>
    (b.writeDownstream len sent k).map fun (t, os) => ({ b with toEnds := t }, os)
  | .writeDown true len sent, .received numBlocks file =>
    if sent = len then some (b.handleDownstreamWrite numBlocks file) else none
  | o, e => (b.handleRequest o e).map fun (t, os) => ({ b with toEnds := t }, os)

variable {b b' : ClientEnds} {o : Op} {e : Completion} {os : List Op}

theorem handle_cases (h : b.handle o e = some (b', os)) :
    (∃ t, b.handleRequest o e = some (t, os) ∧ b' = { b with toEnds := t }) ∨
    (o.use .response = 1 ∧ o ≠ .readUp true ∧ e = .error ∧ b' = { b with toEnds := b.close } ∧ os = []) ∨
    (o = .connect ∧ e = .connected ∧ b' = b ∧ os = [.readUp b.isOpen, .readDown b.isOpen]) ∨
    (o = .readUp true ∧ e = .read [] ∧ b.handleUpstreamRead = some (b', os)) ∨
    (∃ len sent k, o = .writeDown true len sent ∧ e = .wrote k ∧ sent + k ≤ len ∧
      os = [.writeDown true len (sent + k)] ∧
      b' = { b with written := b.written ++ (b.upstreamData.bytes.drop sent).take k }) ∨
    ∃ len n file, o = .writeDown true len len ∧ e = .received n file ∧ (b', os) = b.handleDownstreamWrite n file := by
  unfold handle at h
  split at h
  · cases h
    exact .inr (.inl ⟨rfl, Op.noConfusion, rfl, rfl, rfl⟩)
  · cases h
    exact .inr (.inr (.inl ⟨rfl, rfl, rfl, rfl⟩))
  · cases h
    exact .inr (.inl ⟨rfl, by simp, rfl, rfl, rfl⟩)
  · exact .inr (.inr (.inr (.inl ⟨rfl, rfl, h⟩)))
  · cases h
    exact .inr (.inl ⟨rfl, Op.noConfusion, rfl, rfl, rfl⟩)
  · obtain ⟨⟨t, os'⟩, ht, he⟩ := Option.map_eq_some_iff.1 h
    cases he
    unfold Ends.writeDownstream at ht
    split at ht
    · rename_i hk
      cases ht
      exact .inr (.inr (.inr (.inr (.inl ⟨_, _, _, rfl, rfl, hk.2, rfl, rfl⟩))))
    · cases ht
  · split at h
    · rename_i hs
      exact .inr (.inr (.inr (.inr (.inr ⟨_, _, _, by rw [hs], rfl, (Option.some.inj h).symm⟩))))
    · cases h
  · obtain ⟨⟨t, os'⟩, ht, he⟩ := Option.map_eq_some_iff.1 h
    cases he
    exact .inl ⟨t, ht, rfl⟩

theorem handleUpstreamRead_cases (h : b.handleUpstreamRead = some (b', os)) :
    (b.c = none ∧ b' = b ∧ os = [.writeDown b.isOpen 0 0]) ∨
    ∃ c hc, b.c = some c ∧ b' = { b with upstreamData := b.upstreamData.fill c hc, c := none } ∧
      os = [.writeDown b.isOpen c.length 0] := by
  unfold handleUpstreamRead at h
  split at h
  · rename_i hc
    cases h
    exact .inl ⟨hc, rfl, rfl⟩
  · rename_i c hc
    split at h
    · rename_i hlen
      cases h
      exact .inr ⟨c, hlen, hc, rfl, rfl⟩
    · cases h

theorem frugal : Frugal handle Op.use := by
  intro b o e b' os h d
  rcases handle_cases h with ⟨t, ht, -⟩ | ⟨-, -, -, -, rfl⟩ | ⟨rfl, -, -, rfl⟩ | ⟨rfl, -, hr⟩ |
    ⟨_, _, _, rfl, -, -, rfl, -⟩ | ⟨_, _, _, rfl, -, hw⟩
  · exact (Ends.handleRequest_frame ht).2.2.2.2 d
  · exact Nat.zero_le _
  · cases d <;> exact Nat.le_refl 1
  · rcases handleUpstreamRead_cases hr with ⟨-, -, rfl⟩ | ⟨_, _, -, -, rfl⟩ <;> exact Nat.le_refl _
  · exact Nat.le_refl _
  · cases hw
    exact Nat.le_refl _

variable (b) in
/-- Where the bytes that `receive_file` came back with are. -/
def Responses : Op → Prop
  | .connect => b.c = none ∧ b.received = b.written
  | .readUp _ => b.received = b.written ++ b.c.getD []
  | .writeDown _ len sent =>
    b.c = none ∧ b.written ++ (b.upstreamData.bytes.take len).drop sent = b.received ∧ sent ≤ len
  | _ => True

theorem responses_of_request (h : o.use .response = 0) : b.Responses o := by
  cases o with
  | connect => cases h
  | readUp _ => cases h
  | writeDown _ _ _ => cases h
  | readDown _ => trivial
  | writeUp _ _ _ => trivial

theorem Responses.congr (h : b.Responses o) {t : Ends} (h1 : t.written = b.written)
    (h2 : t.upstreamData = b.upstreamData) : ({ b with toEnds := t } : ClientEnds).Responses o := by
  cases o with
  | connect => exact ⟨h.1, h.2.trans h1.symm⟩
  | readUp _ => exact h.trans (by rw [h1])
  | writeDown _ len sent =>
    refine ⟨h.1, ?_, h.2.2⟩
    show t.written ++ (t.upstreamData.bytes.take len).drop sent = b.received
    rw [h1, h2]
    exact h.2.1
  | readDown _ => trivial
  | writeUp _ _ _ => trivial

variable (b) in
/-- What has gone out came in, in this order. -/
def Relayed : Prop := b.forwarded <+: b.taken ∧ b.written <+: b.received

variable (b o) in
def Holds : Prop := b.Requests o ∧ b.Responses o

/-- A handler of the responses leaves the requests alone. -/
theorem frame_of_response (h : b.handle o e = some (b', os)) (ho : ∀ t, b.handleRequest o e ≠ some (t, os)) :
    b'.forwarded = b.forwarded ∧ b'.taken = b.taken ∧ b'.downstreamData = b.downstreamData := by
  rcases handle_cases h with ⟨t, ht, -⟩ | ⟨-, -, -, rfl, -⟩ | ⟨-, -, rfl, -⟩ | ⟨-, -, hr⟩ |
    ⟨_, _, _, -, -, -, -, rfl⟩ | ⟨_, _, _, -, -, hw⟩
  · exact absurd ht (ho t)
  · exact ⟨rfl, rfl, rfl⟩
  · exact ⟨rfl, rfl, rfl⟩
  · rcases handleUpstreamRead_cases hr with ⟨-, rfl, -⟩ | ⟨_, _, -, rfl, -⟩ <;> exact ⟨rfl, rfl, rfl⟩
  · exact ⟨rfl, rfl, rfl⟩
  · cases hw
    exact ⟨rfl, rfl, rfl⟩

theorem Holds.own (hI : b.Relayed) (h : b.Holds o) (hh : b.handle o e = some (b', os)) :
    b'.Relayed ∧ ∀ o' ∈ os, b'.Holds o' := by
  obtain ⟨hreq, hres⟩ := h
  rcases handle_cases hh with ⟨t, ht, rfl⟩ | ⟨-, -, -, rfl, rfl⟩ | ⟨rfl, -, rfl, rfl⟩ | ⟨rfl, -, hr⟩ |
    ⟨len, sent, k, rfl, -, hk, rfl, rfl⟩ | ⟨len, _, file, rfl, -, hw⟩
  · obtain ⟨-, h0, hu, hw, hload⟩ := Ends.handleRequest_frame ht
    obtain ⟨h1, h2⟩ := hreq.handleRequest hI.1 ht
    refine ⟨⟨h1, by rw [hw]; exact hI.2⟩, fun o' ho' => ⟨h2 o' ho', responses_of_request ?_⟩⟩
    have := Nat.le_trans (le_load ho') (hload .response)
    omega
  · exact ⟨hI, fun o' ho' => nomatch ho'⟩
  · refine ⟨hI, fun o' ho' => ?_⟩
    rcases List.mem_cons.1 ho' with rfl | ho'
    · exact ⟨trivial, hres.2.trans (by rw [hres.1]; exact (List.append_nil _).symm)⟩
    · obtain rfl := List.mem_singleton.1 ho'
      exact ⟨hreq, trivial⟩
  · have hc : b.received = b.written ++ b.c.getD [] := hres
    rcases handleUpstreamRead_cases hr with ⟨hnone, rfl, rfl⟩ | ⟨c, hlen, hsome, rfl, rfl⟩
    · refine ⟨hI, fun o' ho' => ?_⟩
      obtain rfl := List.mem_singleton.1 ho'
      rw [hnone] at hc
      exact ⟨trivial, hnone, by simpa using hc.symm, Nat.le_refl 0⟩
    · refine ⟨hI, fun o' ho' => ?_⟩
      obtain rfl := List.mem_singleton.1 ho'
      rw [hsome] at hc
      refine ⟨trivial, rfl, ?_, Nat.zero_le _⟩
      rw [DataBuffer.take_fill, List.drop_zero]
      exact hc.symm
  · have hpiece := (Ends.append_piece b.written b.upstreamData.bytes hk).trans hres.2.1
    refine ⟨⟨hI.1, ⟨_, hpiece⟩⟩, fun o' ho' => ?_⟩
    obtain rfl := List.mem_singleton.1 ho'
    exact ⟨trivial, hres.1, hpiece, hk⟩
  · cases hw
    have hall := hres.2.1
    rw [List.drop_of_length_le (List.length_take_le ..), List.append_nil] at hall
    refine ⟨⟨hI.1, hI.2.trans (List.prefix_append ..)⟩, fun o' ho' => ?_⟩
    obtain rfl := List.mem_singleton.1 ho'
    refine ⟨trivial, ?_⟩
    show b.received ++ file = b.written ++ file
    rw [hall]

theorem Holds.other {o' : Op} (hh : b.handle o e = some (b', os)) (ha : ∀ d, 0 < o.use d → o'.use d = 0)
    (h : b.Holds o') : b'.Holds o' := by
  rcases handle_cases hh with ⟨t, ht, rfl⟩ | hresp
  · obtain ⟨h1, -, hu, hw, -⟩ := Ends.handleRequest_frame ht
    exact ⟨Ends.requests_of_response (ha .request (by omega)), h.2.congr hw hu⟩
  · have h1 : o.use .response = 1 := by
      rcases hresp with ⟨h1, -⟩ | ⟨rfl, -⟩ | ⟨rfl, -⟩ | ⟨_, _, _, rfl, -⟩ | ⟨_, _, _, rfl, -⟩
      · exact h1
      all_goals rfl
    obtain ⟨hf, ht, hd⟩ := frame_of_response hh fun t ht => by
      have := (Ends.handleRequest_frame ht).2.1
      omega
    exact ⟨h.1.congr hf ht hd, responses_of_request (ha .response (by omega))⟩

/-- What holds of a bridge between two handlers. -/
structure Sound (s : Loop ClientEnds Op) : Prop where
  exclusive : Exclusive Op.use s.pending
  relayed : s.obj.Relayed
  holds : ∀ o ∈ s.pending, s.obj.Holds o

theorem sound_new (down up : DataBuffer) : Sound ⟨new down up, [.connect]⟩ := by
  refine ⟨Op.exclusive_connect, ⟨List.prefix_rfl, List.prefix_rfl⟩, fun o ho => ?_⟩
  obtain rfl := List.mem_singleton.1 ho
  exact ⟨rfl, rfl, rfl⟩

theorem Sound.run {s s' : Loop ClientEnds Op} (h : Sound s) {as : List (ℕ × Completion)}
    (hr : Lts.run (step handle) s as = some s') : Sound s' := by
  obtain ⟨h1, h2, h3⟩ := invariant_of_handlers frugal (fun _ _ _ _ _ hI h hh => Holds.own hI h hh)
    (fun _ _ _ _ _ _ hh ha h => h.other hh ha) hr h.exclusive h.relayed h.holds
  exact ⟨h1, h2, h3⟩

/-- In every run of the handlers of a bridge, at most one operation is pending for each direction. What is written to
the upstream socket was read from the downstream socket, in this order, and what is written to the downstream socket
came back from `receive_file`; between a write and the next read nothing is on the way. -/
theorem client_relays (down up : DataBuffer) {as : List (ℕ × Completion)} {s : Loop ClientEnds Op}
    (hr : Lts.run (step handle) ⟨new down up, [.connect]⟩ as = some s) :
    Exclusive Op.use s.pending ∧ s.pending.length ≤ 2 ∧
      s.obj.forwarded <+: s.obj.taken ∧ s.obj.written <+: s.obj.received ∧
      (∀ ok, .readDown ok ∈ s.pending → s.obj.forwarded = s.obj.taken) ∧
      ∀ ok, .readUp ok ∈ s.pending → s.obj.written ++ s.obj.c.getD [] = s.obj.received := by
  obtain ⟨he, hI, hP⟩ := (sound_new down up).run hr
  exact ⟨he, Op.length_le_two he, hI.1, hI.2, fun ok ho => (hP _ ho).1, fun ok ho => (hP _ ho).2.symm⟩

/-- One byte of a request of two has been written, and `receive_file` has come back. -/
theorem client_relays_small :
    ∃ s, Lts.run (step handle) ⟨new .zero .zero, [.connect]⟩ [(0, .connected), (1, .read [71, 72]), (1, .wrote 1),
        (0, .read []), (1, .received 2 [73]), (1, .read [])] = some s ∧
      s.pending.length ≤ 2 ∧ s.obj.forwarded <+: s.obj.taken ∧ s.obj.written <+: s.obj.received := by
  obtain ⟨s, hr⟩ : ∃ s, Lts.run (step handle) ⟨new .zero .zero, [.connect]⟩ [(0, .connected), (1, .read [71, 72]),
      (1, .wrote 1), (0, .read []), (1, .received 2 [73]), (1, .read [])] = some s := ⟨_, rfl⟩
  obtain ⟨-, h2, h3, h4, -⟩ := client_relays .zero .zero hr
  exact ⟨s, hr, h2, h3, h4⟩

end ClientEnds

/-- A bridge of `tcpproxy_server`. -/
structure ServerEnds extends Ends where
  /-- read from the upstream socket -/
  takenUp : List UInt8
  /-- what `send_file` was called with -/
  files : List (List UInt8)

namespace ServerEnds

def new (down up : DataBuffer) : ServerEnds := ⟨.new down up, [], []⟩

/-- `send_file` is called with the first bytes of `upstream_data_`, and 0 bytes are written. -/
def handleUpstreamRead (b : ServerEnds) (q : List UInt8) (h : q.length ≤ 8192) : ServerEnds × List Op :=
  let upstreamData := b.upstreamData.fill q h
  ({ b with
    upstreamData := upstreamData
    takenUp := b.takenUp ++ q
    files := b.files ++ [upstreamData.bytes.take q.length] },
    [.writeDown b.isOpen 0 0])

def handle (b : ServerEnds) : Op → Completion → Option (ServerEnds × List Op)
  | .connect, .error => some ({ b with toEnds := b.close }, [])
  | .connect, .connected => some (b, [.readUp b.isOpen, .readDown b.isOpen])
  | .readUp _, .error => some ({ b with toEnds := b.close }, [])
  | .readUp true, .read q => if h : Buffered q then some (b.handleUpstreamRead q h.2) else none
  | .writeDown false _ _, .error => some ({ b with toEnds := b.close }, [])
  | .writeDown true len sent, .finished => if sent = len then some (b, [.readUp b.isOpen]) else none
  | o, e => (b.handleRequest o e).map fun (t, os) => ({ b with toEnds := t }, os)

variable {b b' : ServerEnds} {o : Op} {e : Completion} {os : List Op}

theorem handle_cases (h : b.handle o e = some (b', os)) :
    (∃ t, b.handleRequest o e = some (t, os) ∧ b' = { b with toEnds := t }) ∨
    (o.use .response = 1 ∧ (∀ len sent, o ≠ .writeDown true len sent) ∧ e = .error ∧
      b' = { b with toEnds := b.close } ∧ os = []) ∨
    (o = .connect ∧ e = .connected ∧ b' = b ∧ os = [.readUp b.isOpen, .readDown b.isOpen]) ∨
    (∃ q, ∃ hq : Buffered q, o = .readUp true ∧ e = .read q ∧ (b', os) = b.handleUpstreamRead q hq.2) ∨
    ∃ len, o = .writeDown true len len ∧ b' = b ∧ os = [.readUp b.isOpen] := by
  unfold handle at h
  split at h
  · cases h
    exact .inr (.inl ⟨rfl, fun _ _ => Op.noConfusion, rfl, rfl, rfl⟩)
  · cases h
    exact .inr (.inr (.inl ⟨rfl, rfl, rfl, rfl⟩))
  · cases h
    exact .inr (.inl ⟨rfl, fun _ _ => Op.noConfusion, rfl, rfl, rfl⟩)
  · split at h
    · rename_i hq
      exact .inr (.inr (.inr (.inl ⟨_, hq, rfl, rfl, (Option.some.inj h).symm⟩)))
    · cases h
  · cases h
    exact .inr (.inl ⟨rfl, by simp, rfl, rfl, rfl⟩)
  · split at h
    · rename_i hs
      cases h
      exact .inr (.inr (.inr (.inr ⟨_, by rw [hs], rfl, rfl⟩)))
    · cases h
  · obtain ⟨⟨t, os'⟩, ht, he⟩ := Option.map_eq_some_iff.1 h
    cases he
    exact .inl ⟨t, ht, rfl⟩

theorem frugal : Frugal handle Op.use := by
  intro b o e b' os h d
  rcases handle_cases h with ⟨t, ht, -⟩ | ⟨-, -, -, -, rfl⟩ | ⟨rfl, -, -, rfl⟩ | ⟨_, _, rfl, -, hr⟩ | ⟨_, rfl, -, rfl⟩
  · exact (Ends.handleRequest_frame ht).2.2.2.2 d
  · exact Nat.zero_le _
  · cases d <;> exact Nat.le_refl 1
  · cases hr
    exact Nat.le_refl _
  · exact Nat.le_refl _

variable (b) in
/-- What was read from the upstream socket has gone into `send_file`, piece by piece. -/
structure Relayed : Prop where
  forwarded : b.forwarded <+: b.taken
  files : b.files.flatten = b.takenUp
  buffered : ∀ f ∈ b.files, Buffered f
  written : b.written = []

theorem Relayed.own (hI : b.Relayed) (h : b.Requests o) (hh : b.handle o e = some (b', os)) :
    b'.Relayed ∧ ∀ o' ∈ os, b'.Requests o' := by
  rcases handle_cases hh with ⟨t, ht, rfl⟩ | ⟨-, -, -, rfl, rfl⟩ | ⟨rfl, -, rfl, rfl⟩ | ⟨q, hq, rfl, -, hr⟩ |
    ⟨_, rfl, rfl, rfl⟩
  · obtain ⟨-, -, -, hw, -⟩ := Ends.handleRequest_frame ht
    obtain ⟨h1, h2⟩ := h.handleRequest hI.forwarded ht
    exact ⟨⟨h1, hI.files, hI.buffered, hw.trans hI.written⟩, h2⟩
  · exact ⟨⟨hI.forwarded, hI.files, hI.buffered, hI.written⟩, fun o' ho' => nomatch ho'⟩
  · refine ⟨hI, fun o' ho' => ?_⟩
    rcases List.mem_cons.1 ho' with rfl | ho'
    · trivial
    · obtain rfl := List.mem_singleton.1 ho'
      exact h
  · cases hr
    refine ⟨⟨hI.forwarded, ?_, fun f hf => ?_, hI.written⟩, fun o' ho' => ?_⟩
    · show (b.files ++ [_]).flatten = b.takenUp ++ q
      rw [List.flatten_append, hI.files, DataBuffer.take_fill, List.flatten_singleton]
    · rcases List.mem_append.1 hf with hf | hf
      · exact hI.buffered f hf
      · rw [List.mem_singleton.1 hf, DataBuffer.take_fill]
        exact hq
    · obtain rfl := List.mem_singleton.1 ho'
      trivial
  · refine ⟨hI, fun o' ho' => ?_⟩
    obtain rfl := List.mem_singleton.1 ho'
    trivial

theorem requests_other {o' : Op} (hh : b.handle o e = some (b', os)) (ha : ∀ d, 0 < o.use d → o'.use d = 0)
    (h : b.Requests o') : b'.Requests o' := by
  rcases handle_cases hh with ⟨t, ht, rfl⟩ | ⟨-, -, -, rfl, -⟩ | ⟨-, -, rfl, -⟩ | ⟨_, _, -, -, hr⟩ | ⟨_, -, rfl, -⟩
  · have := (Ends.handleRequest_frame ht).1
    exact Ends.requests_of_response (ha .request (by omega))
  · exact h.congr rfl rfl rfl
  · exact h
  · cases hr
    exact h.congr rfl rfl rfl
  · exact h

structure Sound (s : Loop ServerEnds Op) : Prop where
  exclusive : Exclusive Op.use s.pending
  relayed : s.obj.Relayed
  requests : ∀ o ∈ s.pending, s.obj.Requests o

theorem sound_new (down up : DataBuffer) : Sound ⟨new down up, [.connect]⟩ := by
  refine ⟨Op.exclusive_connect, ⟨List.prefix_rfl, rfl, fun _ hf => (nomatch hf), rfl⟩, fun o ho => ?_⟩
  obtain rfl := List.mem_singleton.1 ho
  rfl

theorem Sound.run {s s' : Loop ServerEnds Op} (h : Sound s) {as : List (ℕ × Completion)}
    (hr : Lts.run (step handle) s as = some s') : Sound s' := by
  obtain ⟨h1, h2, h3⟩ := invariant_of_handlers frugal (fun _ _ _ _ _ hI h hh => Relayed.own hI h hh)
    (fun _ _ _ _ _ _ hh ha h => requests_other hh ha h) hr h.exclusive h.relayed h.requests
  exact ⟨h1, h2, h3⟩

/-- The same for a bridge of `tcpproxy_server`: requests go on as they come in, and `send_file` is called with
the bytes of one read after the other. -/
theorem server_relays (down up : DataBuffer) {as : List (ℕ × Completion)} {s : Loop ServerEnds Op}
    (hr : Lts.run (step handle) ⟨new down up, [.connect]⟩ as = some s) :
    Exclusive Op.use s.pending ∧ s.pending.length ≤ 2 ∧
      s.obj.forwarded <+: s.obj.taken ∧ (∀ ok, .readDown ok ∈ s.pending → s.obj.forwarded = s.obj.taken) ∧
      s.obj.files.flatten = s.obj.takenUp ∧ (∀ f ∈ s.obj.files, 1 ≤ f.length ∧ f.length ≤ 8192) ∧
      s.obj.written = [] := by
  obtain ⟨he, hI, hP⟩ := (sound_new down up).run hr
  exact ⟨he, Op.length_le_two he, hI.forwarded, fun ok ho => hP _ ho, hI.files, hI.buffered, hI.written⟩

theorem server_relays_small :
    ∃ s, Lts.run (step handle) ⟨new .zero .zero, [.connect]⟩ [(0, .connected), (0, .read [72, 73]), (0, .read [71]),
        (0, .finished)] = some s ∧ s.pending.length ≤ 2 ∧ s.obj.files.flatten = s.obj.takenUp := by
  obtain ⟨s, hr⟩ : ∃ s, Lts.run (step handle) ⟨new .zero .zero, [.connect]⟩ [(0, .connected), (0, .read [72, 73]),
      (0, .read [71]), (0, .finished)] = some s := ⟨_, rfl⟩
  obtain ⟨-, h2, -, -, h5, -⟩ := server_relays .zero .zero hr
  exact ⟨s, hr, h2, h5⟩

end ServerEnds

end Rabin
