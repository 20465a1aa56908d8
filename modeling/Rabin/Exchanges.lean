import Rabin.Relay
import Rabin.Requests

/-!
# A session of `hrd` and `psb`

The request loops of both programs with the Rabin connection between them, one browser after the other. No read times
out that has an answer to wait for, but connects may fail and requests may be empty. As long as `hrd` can open its files
the pair is a plain relay to a browser, whatever happened to the browsers before (`session_replies`), with one
exception: an empty request that gets as far as `psb` keeps it waiting for good.
-/

namespace Rabin
open Reads Mirror

/-- A browser's request, and what it meets. -/
structure Exchange where
  request : List UInt8
  arrives : Delivery request
  /-- `hrd` can connect to `psb`, and `psb` to the upstream proxy -/
  connected : Bool
  upConnected : Bool
  /-- what `recv` returns for the request that comes out upstream -/
  upstream : List UInt8 → List (List UInt8)
  piece : ∀ w, ∀ q ∈ upstream w, Params.Piece q
  /-- how the connections from `hrd` to `psb` and back cut their bytes -/
  net : ∀ bs, Delivery bs
  wire : ∀ bs, Delivery bs
  /-- how often `fopen` succeeds -/
  files : ℕ

structure SyncPair where
  /-- in `psb` -/
  srv : RabinServer
  /-- in `hrd` -/
  cli : Blocks
  /-- `psb` is in the `read` of a connection on which nothing will come -/
  stuck : Bool

namespace SyncPair

def init : SyncPair := ⟨.fresh [], .empty, false⟩

end SyncPair

namespace Params
variable (p : Params)

/-- What `psb` does while `hrd` waits for the response to `w`: nothing if it is stuck, and nothing for `hrd` if it
cannot connect or has nothing to write. -/
def Psb.answer (p : Params) (s : SyncPair) (e : Exchange) (w : List UInt8) : Option RabinServer :=
  if s.stuck then some s.srv
  else
    (Psb.forwardRequest (e.net w).conn).bind fun w' =>
      if !e.upConnected then some s.srv
      else if w' = [] then some s.srv
      else p.respond s.srv (e.upstream w')

/-- One time through the loop of `hrd`, and what the browser is sent. Each round of the response opens a file, and
none is closed; a round that has none ends the program with the assertion of `receive_file`. -/
def Hrd.exchange (p : Params) (s : SyncPair) (e : Exchange) : Option (List UInt8 × SyncPair) :=
  (Hrd.forwardRequest e.arrives.conn).bind fun w =>
    if !e.connected then some (couldNotConnect, s)
    else if w = [] then
      -- `write` returns 0, and the socket is left open
      some (couldNotWrite, { s with stuck := true })
    else
      (Psb.answer p s e w).bind fun srv =>
        let sent := srv.sock.accepted.drop s.srv.sock.accepted.length
        let conn := (e.wire sent).conn ++ [.fail]
        (p.host.relay e.files [] s.cli conn).map fun r =>
          (r.sends.flatten, { s with srv := srv, cli := r.last.blocks })

/-- What the browsers are sent. -/
def exchanges (p : Params) (s : SyncPair) : List Exchange → Option (List (List UInt8) × SyncPair)
  | [] => some ([], s)
  | e :: es => do
    let (b, s) ← Hrd.exchange p s e
    let (bs, s) ← exchanges p s es
    pure (b :: bs, s)

end Params

/-! ### Without the cache and the connections -/

namespace Exchange

/-- `strlen` finds a NUL in the buffer. -/
def Terminated (e : Exchange) : Prop := 0 ∈ e.arrives.first 1000 ∨ (e.arrives.first 1000).length < 1000

/-- What `hrd` has of the request, -/
def asked (e : Exchange) : List UInt8 := (e.arrives.first 1000).takeWhile (· ≠ 0)

/-- and what comes out upstream. -/
def askedUpstream (e : Exchange) : List UInt8 := (e.net e.asked).first 1000

/-- An empty request gets as far as `psb`. -/
def hangs (e : Exchange) : Bool := e.connected && e.asked = []

/-- What the browser is sent. -/
def reply (e : Exchange) (stuck : Bool) : List UInt8 :=
  if !e.connected then couldNotConnect
  else if e.asked = [] then couldNotWrite
  else if stuck || !e.upConnected then []
  else (e.upstream e.askedUpstream).flatten

/-- How many rounds the response takes. -/
def rounds (e : Exchange) (stuck : Bool) : ℕ :=
  if !e.connected || e.asked = [] then 0
  else if stuck || !e.upConnected then 1
  else (e.upstream e.askedUpstream).length + 1

variable {e : Exchange}

theorem forwardRequest_arrives (h : e.Terminated) : Hrd.forwardRequest e.arrives.conn = some e.asked :=
  (forwardRequest_eq e.arrives).trans (if_pos h)

theorem length_asked_lt (h : e.Terminated) : e.asked.length < 1000 := by
  have hle : (e.arrives.first 1000).length ≤ 1000 := List.length_take_le ..
  rcases h with h | h
  · have hlt : e.asked.length < (e.arrives.first 1000).length := by
      refine lt_of_le_of_ne (List.takeWhile_prefix _).length_le fun heq => ?_
      have hall := List.takeWhile_eq_self_iff.1 ((List.takeWhile_prefix _).eq_of_length heq)
      simpa using hall 0 h
    omega
  · exact Nat.lt_of_le_of_lt (List.takeWhile_prefix _).length_le h

/-- The second hop takes no NUL, and the buffer has room for one. -/
theorem forwardRequest_net (h : e.Terminated) : Psb.forwardRequest (e.net e.asked).conn = some e.askedUpstream := by
  have hpre := (e.net e.asked).first_isPrefix 1000
  have hlt := Nat.lt_of_le_of_lt hpre.length_le (length_asked_lt h)
  have hall : (e.net e.asked).first 1000 = ((e.net e.asked).first 1000).takeWhile (· ≠ 0) := by
    refine (List.takeWhile_eq_self_iff.2 fun b hb => ?_).symm
    have hb' : b ∈ (e.arrives.first 1000).takeWhile (· ≠ 0) := hpre.subset hb
    simpa using List.mem_takeWhile_imp hb'
  refine (forwardRequest_eq (e.net e.asked)).trans ((if_pos (.inr hlt)).trans ?_)
  rw [← hall]
  rfl

theorem askedUpstream_isPrefix (e : Exchange) : e.askedUpstream <+: e.request :=
  (((e.net e.asked).first_isPrefix 1000).trans (List.takeWhile_prefix _)).trans (e.arrives.first_isPrefix 1000)

theorem askedUpstream_ne_nil (h : e.asked ≠ []) : e.askedUpstream ≠ [] := by
  have hflat := (e.net e.asked).flatten_eq
  have hne := (e.net e.asked).nonempty
  unfold askedUpstream Delivery.first
  cases hp : (e.net e.asked).pieces with
  | nil =>
    rw [hp] at hflat
    exact absurd hflat.symm h
  | cons x xs =>
    have hx := List.length_pos_iff.2 (hne x (by rw [hp]; exact List.mem_cons_self))
    refine List.length_pos_iff.1 ?_
    rw [List.headD_cons, List.length_take]
    omega

end Exchange

theorem Delivery.tokens_conn {bs : List UInt8} (d : Delivery bs) (c : Conn UInt8) :
    tokens (d.conn ++ c) = bs.map some ++ tokens c := by
  have hpieces (xs : List (List UInt8)) : tokens (xs.map Arrival.piece ++ c) = xs.flatten.map some ++ tokens c := by
    induction xs with
    | nil => rfl
    | cons x xs ih =>
      rw [List.map_cons, List.cons_append, tokens_piece, ih, List.flatten_cons, List.map_append, List.append_assoc]
  rw [Delivery.conn, hpieces, d.flatten_eq]

namespace SyncPair
variable {p : Params} {s : SyncPair} {e : Exchange}

/-- What holds between two requests: nothing is on the way. -/
structure Idle (s : SyncPair) : Prop where
  plan : s.srv.sock.plan = []
  cache : s.cli.cache = s.srv.blocks.cache

theorem idle_init : init.Idle := ⟨rfl, rfl⟩

/-- `hrd` waits in vain. -/
theorem relay_nothing {m : Blocks} {conn : Conn UInt8} (ht : tokens conn = [none]) {files : ℕ} (hf : 0 < files) :
    ∃ r, p.host.relay files [] m conn = some r ∧ r.sends = [] ∧ r.last.blocks = m := by
  obtain ⟨files, rfl⟩ : ∃ k, files = k + 1 := ⟨files - 1, by omega⟩
  have hq : ([] : List UInt8).length < p.host.sizeofBlockDesc := p.host.sizeofBlockDesc_pos
  obtain ⟨conn', -, h2⟩ := p.host.receiveBlock_short_desc (m := m) hq ht (.inr rfl)
  have hloop : p.host.receiveLoop 1 0 [] m conn = some ⟨.lost, [], 1, m, conn'⟩ := by
    rw [Host.receiveLoop, h2]
    rfl
  refine ⟨⟨[], ⟨.lost, [], 1, m, conn'⟩⟩, ?_, rfl, rfl⟩
  rw [Host.relay, p.host.receiveFile_of_loop hloop]
  rfl

/-- The server is as it was, or has sent the response. -/
theorem answer_eq (h : e.Terminated) (ha : e.asked ≠ []) :
    Params.Psb.answer p s e e.asked = if s.stuck || !e.upConnected then some s.srv
      else some ((e.upstream e.askedUpstream ++ [[]]).foldl p.sent s.srv) := by
  unfold Params.Psb.answer
  cases s.stuck with
  | true => rfl
  | false =>
    rw [Exchange.forwardRequest_net h, Option.bind_some, if_neg (Exchange.askedUpstream_ne_nil ha),
      p.respond_eq s.srv (e.piece e.askedUpstream)]
    cases e.upConnected <;> rfl

/-- What `hrd` finds on the Rabin connection. -/
def arriving (s : SyncPair) (e : Exchange) (srv : RabinServer) : Conn UInt8 :=
  (e.wire (srv.sock.accepted.drop s.srv.sock.accepted.length)).conn ++ [.fail]

theorem exchange_eq (h : e.Terminated) (hc : e.connected = true) (ha : e.asked ≠ []) {srv : RabinServer}
    (hsrv : Params.Psb.answer p s e e.asked = some srv) :
    Params.Hrd.exchange p s e =
      (p.host.relay e.files [] s.cli (s.arriving e srv)).map fun r =>
        (r.sends.flatten, { s with srv := srv, cli := r.last.blocks }) := by
  unfold Params.Hrd.exchange
  rw [Exchange.forwardRequest_arrives h, Option.bind_some, hc, if_neg ha, hsrv]
  rfl

theorem tokens_arriving {srv : RabinServer} {out : List UInt8}
    (hout : srv.sock.accepted = s.srv.sock.accepted ++ out) :
    tokens (s.arriving e srv) = out.map some ++ [none] := by
  rw [arriving, Delivery.tokens_conn, hout, List.drop_left]
  rfl

theorem Idle.exchange (hs : s.Idle) (h : e.Terminated) (hf : e.rounds s.stuck ≤ e.files) :
    ∃ s', Params.Hrd.exchange p s e = some (e.reply s.stuck, s') ∧ s'.Idle ∧ s'.stuck = (s.stuck || e.hangs) := by
  by_cases hc : e.connected = true
  · by_cases ha : e.asked = []
    · refine ⟨{ s with stuck := true }, ?_, ⟨hs.plan, hs.cache⟩, by simp [Exchange.hangs, hc, ha]⟩
      unfold Params.Hrd.exchange Exchange.reply
      rw [Exchange.forwardRequest_arrives h, Option.bind_some, hc, if_pos ha, if_pos ha]
      rfl
    · have hans := answer_eq (p := p) (s := s) h ha
      rw [Exchange.rounds, hc, Bool.not_true, Bool.false_or, if_neg (by simpa using ha)] at hf
      have hstuck : s.stuck = (s.stuck || e.hangs) := by simp [Exchange.hangs, ha]
      by_cases hno : (s.stuck || !e.upConnected) = true
      · rw [if_pos hno] at hans
        have ht : tokens (s.arriving e s.srv) = [none] := tokens_arriving (List.append_nil _).symm
        rw [if_pos hno] at hf
        obtain ⟨r, hr, hsends, hblocks⟩ := relay_nothing (p := p) (m := s.cli) ht hf
        refine ⟨{ s with cli := r.last.blocks }, ?_, ⟨hs.plan, hblocks ▸ hs.cache⟩, hstuck⟩
        rw [exchange_eq h hc ha hans, hr, Exchange.reply, hc, if_neg ha, if_pos hno, Option.map_some, hsends]
        rfl
      · rw [if_neg hno] at hans
        obtain ⟨hplan, hacc, hcache⟩ := p.foldl_sent hs.plan (e.upstream e.askedUpstream ++ [[]])
        have ht := tokens_arriving (e := e) hacc
        rw [← hs.cache] at ht
        obtain ⟨m', conn', -, hm', hrelay⟩ := Params.relay_pieces (e.piece e.askedUpstream) ht
        rw [if_neg hno] at hf
        refine ⟨⟨_, m', s.stuck⟩, ?_, ⟨hplan, ?_⟩, hstuck⟩
        · rw [exchange_eq h hc ha hans, hrelay _ _ hf, Exchange.reply, hc, if_neg ha, if_neg hno]
          rfl
        · rw [hm', hcache, hs.cache]
  · refine ⟨s, ?_, hs, by simp [Exchange.hangs, hc]⟩
    unfold Params.Hrd.exchange Exchange.reply
    rw [Exchange.forwardRequest_arrives h, Option.bind_some, Bool.eq_false_iff.2 hc]
    rfl

theorem Idle.exchanges (hs : s.Idle) {es : List Exchange} (he : ∀ e ∈ es, e.Terminated)
    (hf : ∀ (k : ℕ) (e : Exchange), es[k]? = some e →
      e.rounds (s.stuck || (es.take k).any Exchange.hangs) ≤ e.files) :
    ∃ bs s', Params.exchanges p s es = some (bs, s') ∧ bs.length = es.length ∧
      ∀ (k : ℕ) (e : Exchange), es[k]? = some e →
        bs[k]? = some (e.reply (s.stuck || (es.take k).any Exchange.hangs)) := by
  induction es generalizing s with
  | nil => exact ⟨[], s, rfl, rfl, fun k e hk => by simp at hk⟩
  | cons e es ih =>
    obtain ⟨s₁, h1, hs₁, hstuck⟩ :=
      hs.exchange (p := p) (he e List.mem_cons_self) (by simpa using hf 0 e rfl)
    have hf₁ (k : ℕ) (e' : Exchange) (hk : es[k]? = some e') :
        e'.rounds (s₁.stuck || (es.take k).any Exchange.hangs) ≤ e'.files := by
      have hle := hf (k + 1) e' (by rwa [List.getElem?_cons_succ])
      rwa [List.take_succ_cons, List.any_cons, ← Bool.or_assoc, ← hstuck] at hle
    obtain ⟨bs, s', h2, hlen, hget⟩ := ih hs₁ (fun e' he' => he e' (List.mem_cons_of_mem e he')) hf₁
    refine ⟨e.reply s.stuck :: bs, s', ?_, congrArg (· + 1) hlen, fun k e' hk => ?_⟩
    · simp only [Params.exchanges, h1, h2, Option.bind_eq_bind, Option.bind_some, Option.pure_def]
    · cases k with
      | zero =>
        cases hk
        simp
      | succ k =>
        rw [List.getElem?_cons_succ] at hk ⊢
        rw [hget k e' hk, hstuck, List.take_succ_cons, List.any_cons, Bool.or_assoc]

/-- While every `fopen` succeeds, each browser is sent the response to what came out upstream of its own request, or
learns that there is none: what the cache holds and how the bytes are cut does not matter, nor whether earlier connects
failed. An empty request is the last that comes to anything. -/
theorem session_replies (p : Params) (es : List Exchange) (he : ∀ e ∈ es, e.Terminated)
    (hf : ∀ (k : ℕ) (e : Exchange), es[k]? = some e → e.rounds ((es.take k).any Exchange.hangs) ≤ e.files) :
    ∃ bs s, Params.exchanges p init es = some (bs, s) ∧ bs.length = es.length ∧
      ∀ (k : ℕ) (e : Exchange), es[k]? = some e → e.askedUpstream <+: e.request ∧
        bs[k]? = some (e.reply ((es.take k).any Exchange.hangs)) := by
  obtain ⟨bs, s, h1, hlen, hget⟩ := idle_init.exchanges (p := p) he hf
  exact ⟨bs, s, h1, hlen, fun k e hk => ⟨e.askedUpstream_isPrefix, hget k e hk⟩⟩

/-- The second request is empty, and the third comes to nothing. The first response takes three files. -/
theorem session_replies_small :
    let e (req : List UInt8) (files : ℕ) : Exchange :=
      ⟨req, .whole req, true, true, fun _ => [[97], [98]], fun _ => by decide, .whole, .whole, files⟩
    ∃ bs s, Params.exchanges .small init [e [71] 3, e [] 0, e [72] 1] = some (bs, s) ∧
      bs[0]? = some [97, 98] ∧ bs[1]? = some couldNotWrite ∧ bs[2]? = some [] := by
  intro e
  have he (req : List UInt8) (files : ℕ) (hreq : (e req files).arrives.first 1000 = req) (hlen : req.length < 1000) :
      (e req files).Terminated := .inr (by rwa [hreq])
  obtain ⟨bs, s, h1, -, h2⟩ := session_replies .small [e [71] 3, e [] 0, e [72] 1] (List.forall_mem_cons.2
    ⟨he _ _ rfl (by decide), List.forall_mem_cons.2 ⟨he _ _ rfl (by decide), List.forall_mem_singleton.2
      (he _ _ rfl (by decide))⟩⟩) (by
    rintro (_ | _ | _ | k) _ hk
    · cases hk
      exact Nat.le_refl 3
    · cases hk
      exact Nat.le_refl 0
    · cases hk
      exact Nat.le_refl 1
    · cases hk)
  exact ⟨bs, s, h1, (h2 0 _ rfl).2, (h2 1 _ rfl).2, (h2 2 _ rfl).2⟩

end SyncPair

end Rabin
