import Rabin.Pipe

/-!
# `tcpproxy_client` and `tcpproxy_server`

Both proxies keep a bridge for each connection and run the handlers of all bridges in one event loop.
Requests go from bridge to bridge over a socket of their own. The responses of all bridges go over the
one Rabin connection: `handle_upstream_read` of `tcpproxy_server` calls `send_file`, and
`handle_downstream_write` of `tcpproxy_client` calls `receive_file`.
-/

namespace Rabin

/-- Where a chain of handlers is. An operation is `ok` if the bridge was open when it was started; on a
closed socket it fails. -/
inductive Chain
  | idle
  | connecting
  | reading (ok : Bool)
  | writing (ok : Bool)
  | done
  deriving DecidableEq

/-- What a read of up to `max_data_length` bytes returns. -/
def Buffered (q : List UInt8) : Prop := 1 ≤ q.length ∧ q.length ≤ 8192

instance (q : List UInt8) : Decidable (Buffered q) := inferInstanceAs (Decidable (_ ∧ _))

/-- What the bridges of both proxies have in common. -/
structure Bridge where
  /-- `handle_upstream_read` and `handle_downstream_write` -/
  response : Chain
  /-- `handle_downstream_read` and `handle_upstream_write` -/
  request : Chain
  isOpen : Bool
  downstreamData : List UInt8
  /-- what the writes to the upstream socket that have completed have written -/
  forwarded : List UInt8

namespace Bridge

def new : Bridge := ⟨.idle, .idle, true, [], []⟩

def start (b : Bridge) : Bridge := { b with response := .connecting }

def close (b : Bridge) : Bridge := { b with isOpen := false }

def handleUpstreamConnect (b : Bridge) (error : Bool) : Option Bridge :=
  if b.response = .connecting then
    if error then some { b.close with response := .done }
    else some { b with response := .reading b.isOpen, request := .reading b.isOpen }
  else none

/-- `none` for an error. -/
def handleDownstreamRead (b : Bridge) (q : Option (List UInt8)) : Option Bridge :=
  match b.request, q with
  | .reading _, none => some { b.close with request := .done }
  | .reading true, some q =>
    if Buffered q then some { b with request := .writing b.isOpen, downstreamData := q } else none
  | _, _ => none

def handleUpstreamWrite (b : Bridge) (error : Bool) : Option Bridge :=
  match b.request, error with
  | .writing _, true => some { b.close with request := .done }
  | .writing true, false =>
    some { b with request := .reading b.isOpen, forwarded := b.forwarded ++ b.downstreamData }
  | _, _ => none

variable {b b' : Bridge} {e : Bool} {q : Option (List UInt8)}

theorem handleUpstreamConnect_cases (h : b.handleUpstreamConnect e = some b') :
    b.response = .connecting ∧ (e = true ∧ b' = { b.close with response := .done } ∨
      e = false ∧ b' = { b with response := .reading b.isOpen, request := .reading b.isOpen }) := by
  unfold handleUpstreamConnect at h
  split at h
  · rename_i hc
    split at h
    · rename_i he
      exact ⟨hc, .inl ⟨he, (Option.some.inj h).symm⟩⟩
    · rename_i he
      exact ⟨hc, .inr ⟨Bool.eq_false_iff.2 he, (Option.some.inj h).symm⟩⟩
  · cases h

theorem handleDownstreamRead_cases (h : b.handleDownstreamRead q = some b') :
    (∃ ok, b.request = .reading ok ∧ q = none ∧ b' = { b.close with request := .done }) ∨
      ∃ data, b.request = .reading true ∧ q = some data ∧ Buffered data ∧
        b' = { b with request := .writing b.isOpen, downstreamData := data } := by
  unfold handleDownstreamRead at h
  split at h
  · rename_i hr
    exact .inl ⟨_, hr, rfl, (Option.some.inj h).symm⟩
  · rename_i hr
    split at h
    · rename_i hq
      exact .inr ⟨_, hr, rfl, hq, (Option.some.inj h).symm⟩
    · cases h
  · cases h

theorem handleUpstreamWrite_cases (h : b.handleUpstreamWrite e = some b') :
    (∃ ok, b.request = .writing ok ∧ e = true ∧ b' = { b.close with request := .done }) ∨
      b.request = .writing true ∧ e = false ∧
        b' = { b with request := .reading b.isOpen, forwarded := b.forwarded ++ b.downstreamData } := by
  unfold handleUpstreamWrite at h
  split at h
  · rename_i hr
    exact .inl ⟨_, hr, rfl, (Option.some.inj h).symm⟩
  · rename_i hr
    exact .inr ⟨hr, rfl, (Option.some.inj h).symm⟩
  · cases h

theorem handleUpstreamConnect_eq (h : b.handleUpstreamConnect e = some b') :
    b.response = .connecting ∧ (∀ ok, b'.response ≠ .writing ok) ∧ (b'.isOpen = true → b.isOpen = true) := by
  obtain ⟨hc, ⟨-, rfl⟩ | ⟨-, rfl⟩⟩ := handleUpstreamConnect_cases h
  · exact ⟨hc, fun _ => Chain.noConfusion, fun ho => nomatch ho⟩
  · exact ⟨hc, fun _ => Chain.noConfusion, id⟩

theorem handleDownstreamRead_eq (h : b.handleDownstreamRead q = some b') :
    b.request ≠ .idle ∧ b'.response = b.response ∧ (b'.isOpen = true → b.isOpen = true) := by
  rcases handleDownstreamRead_cases h with ⟨_, hr, -, rfl⟩ | ⟨_, hr, -, -, rfl⟩
  · exact ⟨by rw [hr]; exact Chain.noConfusion, rfl, fun ho => nomatch ho⟩
  · exact ⟨by rw [hr]; exact Chain.noConfusion, rfl, id⟩

theorem handleUpstreamWrite_eq (h : b.handleUpstreamWrite e = some b') :
    b.request ≠ .idle ∧ b'.response = b.response ∧ (b'.isOpen = true → b.isOpen = true) := by
  rcases handleUpstreamWrite_cases h with ⟨_, hr, -, rfl⟩ | ⟨hr, -, rfl⟩
  · exact ⟨by rw [hr]; exact Chain.noConfusion, rfl, fun ho => nomatch ho⟩
  · exact ⟨by rw [hr]; exact Chain.noConfusion, rfl, id⟩

end Bridge

/-- A bridge of `tcpproxy_client`. -/
structure ClientBridge extends Bridge where
  /-- the connection to `tcpproxy_server` -/
  peer : Option ℕ
  /-- the file `receive_file` came back with -/
  c : Option (List UInt8)
  /-- what was written to the browser -/
  written : List UInt8

inductive ClientAct
  | upstreamConnect (error : Bool)
  | upstreamRead
  | downstreamWriteError
  | downstreamRead (q : Option (List UInt8))
  | upstreamWrite (error : Bool)

namespace ClientBridge

def new : ClientBridge := ⟨.new, none, none, []⟩

/-- It reads 0 bytes, which fails on a closed socket only. -/
def handleUpstreamRead (b : ClientBridge) : Option ClientBridge :=
  match b.response with
  | .reading true =>
    some { b with
      c := none
      written := if b.isOpen then b.written ++ b.c.getD [] else b.written
      response := .writing b.isOpen }
  | .reading false => some { b with toBridge := { b.close with response := .done } }
  | _ => none

/-- `handle_downstream_write` where `receive_file` comes back with `r`. -/
def handleDownstreamWrite (b : ClientBridge) (r : Received) : ClientBridge :=
  let isOpen := b.isOpen && !decide (wrapInt r.numBlocks.toNat ≤ 1)
  { b with c := some r.file, isOpen := isOpen, response := .reading isOpen }

/-- The handlers that leave the Rabin connection alone. -/
def step (b : ClientBridge) : ClientAct → Option ClientBridge
  | .upstreamConnect error =>
    if error = false ∧ b.peer = none then none
    else (b.toBridge.handleUpstreamConnect error).map fun t => { b with toBridge := t }
  | .upstreamRead => b.handleUpstreamRead
  | .downstreamWriteError =>
    match b.response with
    | .writing _ => some { b with toBridge := { b.close with response := .done } }
    | _ => none
  | .downstreamRead q => (b.toBridge.handleDownstreamRead q).map fun t => { b with toBridge := t }
  | .upstreamWrite error => (b.toBridge.handleUpstreamWrite error).map fun t => { b with toBridge := t }

variable {b b' : ClientBridge} {a : ClientAct}

theorem handleUpstreamRead_cases (h : b.handleUpstreamRead = some b') :
    b.response = .reading true ∧ b' = { b with
        c := none
        written := if b.isOpen then b.written ++ b.c.getD [] else b.written
        response := .writing b.isOpen } ∨
      b.response = .reading false ∧ b' = { b with toBridge := { b.close with response := .done } } := by
  unfold handleUpstreamRead at h
  split at h
  · rename_i hr
    exact .inl ⟨hr, (Option.some.inj h).symm⟩
  · rename_i hr
    exact .inr ⟨hr, (Option.some.inj h).symm⟩
  · cases h

/-- All but `handle_upstream_read` change what both kinds of bridges have in common only. -/
theorem step_cases (h : b.step a = some b') :
    a = .upstreamRead ∧ b.handleUpstreamRead = some b' ∨ ∃ t, b' = { b with toBridge := t } ∧
      ((∃ e, a = .upstreamConnect e ∧ b.toBridge.handleUpstreamConnect e = some t) ∨
        (a = .downstreamWriteError ∧ (∃ ok, b.response = .writing ok) ∧ t = { b.close with response := .done }) ∨
        (∃ q, a = .downstreamRead q ∧ b.toBridge.handleDownstreamRead q = some t) ∨
        ∃ e, a = .upstreamWrite e ∧ b.toBridge.handleUpstreamWrite e = some t) := by
  cases a with
  | upstreamConnect error =>
    unfold step at h
    dsimp only at h
    split at h
    · cases h
    · obtain ⟨t, ht, rfl⟩ := Option.map_eq_some_iff.1 h
      exact .inr ⟨t, rfl, .inl ⟨error, rfl, ht⟩⟩
  | upstreamRead => exact .inl ⟨rfl, h⟩
  | downstreamWriteError =>
    unfold step at h
    dsimp only at h
    split at h
    · rename_i hr
      cases h
      exact .inr ⟨_, rfl, .inr (.inl ⟨rfl, ⟨_, hr⟩, rfl⟩)⟩
    · cases h
  | downstreamRead q =>
    obtain ⟨t, ht, rfl⟩ := Option.map_eq_some_iff.1 h
    exact .inr ⟨t, rfl, .inr (.inr (.inl ⟨q, rfl, ht⟩))⟩
  | upstreamWrite error =>
    obtain ⟨t, ht, rfl⟩ := Option.map_eq_some_iff.1 h
    exact .inr ⟨t, rfl, .inr (.inr (.inr ⟨error, rfl, ht⟩))⟩

end ClientBridge

/-- A bridge of `tcpproxy_server`. -/
structure ServerBridge extends Bridge where
  /-- what was read from the upstream socket -/
  read : List UInt8

inductive ServerAct
  | upstreamConnect (error : Bool)
  | upstreamReadError
  | downstreamWrite
  | downstreamRead (q : Option (List UInt8))
  | upstreamWrite (error : Bool)

namespace ServerBridge

def new : ServerBridge := ⟨.new, []⟩

/-- `handle_upstream_read` once it has sent the file. -/
def handleUpstreamRead (b : ServerBridge) (q : List UInt8) : ServerBridge :=
  { b with read := b.read ++ q, response := .writing b.isOpen }

/-- It wrote 0 bytes. -/
def handleDownstreamWrite (b : ServerBridge) : Option ServerBridge :=
  match b.response with
  | .writing true => some { b with response := .reading b.isOpen }
  | .writing false => some { b with toBridge := { b.close with response := .done } }
  | _ => none

def step (b : ServerBridge) : ServerAct → Option ServerBridge
  | .upstreamConnect error => (b.toBridge.handleUpstreamConnect error).map fun t => { b with toBridge := t }
  | .upstreamReadError =>
    match b.response with
    | .reading _ => some { b with toBridge := { b.close with response := .done } }
    | _ => none
  | .downstreamWrite => b.handleDownstreamWrite
  | .downstreamRead q => (b.toBridge.handleDownstreamRead q).map fun t => { b with toBridge := t }
  | .upstreamWrite error => (b.toBridge.handleUpstreamWrite error).map fun t => { b with toBridge := t }

end ServerBridge

structure Proxies where
  /-- the Rabin connection -/
  wire : Pipe
  /-- the files that were sent, each with the bridge that read it, and how many were received to the end -/
  files : List (ℕ × List UInt8)
  received : ℕ
  /-- the bridges of `tcpproxy_client` and how many browsers it has accepted -/
  clients : ℕ → ClientBridge
  browsers : ℕ
  /-- the connections made to `tcpproxy_server`, its bridges and how many connections it has accepted -/
  conns : ℕ
  servers : ℕ → ServerBridge
  accepted : ℕ

inductive ProxyAct
  /-- `tcpproxy_client` accepts a browser -/
  | acceptBrowser
  /-- the upstream socket of its bridge `k` is connected to `tcpproxy_server` -/
  | connect (k : ℕ)
  | client (k : ℕ) (a : ClientAct)
  /-- `handle_downstream_write` of its bridge `k`, with no error. The call of `receive_file` blocks until it
  comes back or, `n` bytes on, times out -/
  | receive (k n : ℕ)
  /-- `tcpproxy_server` accepts the next connection -/
  | accept
  | server (j : ℕ) (a : ServerAct)
  /-- `handle_upstream_read` of its bridge `j`, which has read `q` -/
  | send (j : ℕ) (q : List UInt8)

namespace Proxies

def init : Proxies := ⟨.init, [], 0, fun _ => .new, 0, 0, fun _ => .new, 0⟩

/-- A bridge of `tcpproxy_client` is numbered as browsers come, one of `tcpproxy_server` as connections do:
`peer` is the bridge on the other side. What was written to a browser is a prefix of what that bridge read. -/
def Isolated (s : Proxies) : Prop :=
  ∀ k, match (s.clients k).peer with
    | none => (s.clients k).written = []
    | some j => (s.clients k).written <+: (s.servers j).read

end Proxies

namespace Params
variable (p : Params)

def proxyStep (s : Proxies) : ProxyAct → Option Proxies
  | .acceptBrowser =>
    let b := s.clients s.browsers
    some { s with
      clients := Function.update s.clients s.browsers { b with toBridge := b.start }
      browsers := s.browsers + 1 }
  | .connect k =>
    let b := s.clients k
    if b.response = .connecting ∧ b.peer = none then
      some { s with clients := Function.update s.clients k { b with peer := some s.conns }, conns := s.conns + 1 }
    else none
  | .client k a => ((s.clients k).step a).map fun b => { s with clients := Function.update s.clients k b }
  | .receive k n =>
    if (s.clients k).response = .writing true then
      (p.pipeReceive s.wire n).bind fun (r, w) =>
        -- the exception ends the program
        if r.last = .outOfRange then none
        else
          some { s with
            wire := w
            received := if r.last = .eof then s.received + 1 else s.received
            clients := Function.update s.clients k ((s.clients k).handleDownstreamWrite r) }
    else none
  | .accept =>
    if s.accepted < s.conns then
      let b := s.servers s.accepted
      some { s with
        servers := Function.update s.servers s.accepted { b with toBridge := b.start }
        accepted := s.accepted + 1 }
    else none
  | .server j a => ((s.servers j).step a).map fun b => { s with servers := Function.update s.servers j b }
  | .send j q =>
    if (s.servers j).response = .reading true ∧ Buffered q then
      (p.pipeSend s.wire q).map fun w =>
        { s with
          wire := w
          files := s.files ++ [(j, q)]
          servers := Function.update s.servers j ((s.servers j).handleUpstreamRead q) }
    else none

/-! ### What has happened where an action could happen -/

variable {p} {s s' : Proxies} {k n j : ℕ} {q : List UInt8}

theorem proxyStep_connect (h : p.proxyStep s (.connect k) = some s') :
    (s.clients k).response = .connecting ∧ (s.clients k).peer = none ∧ s' = { s with
      clients := Function.update s.clients k { s.clients k with peer := some s.conns }
      conns := s.conns + 1 } := by
  unfold proxyStep at h
  dsimp only at h
  split at h
  · rename_i hc
    exact ⟨hc.1, hc.2, (Option.some.inj h).symm⟩
  · cases h

theorem proxyStep_receive (h : p.proxyStep s (.receive k n) = some s') :
    ∃ r w, (s.clients k).response = .writing true ∧ p.pipeReceive s.wire n = some (r, w) ∧ r.last ≠ .outOfRange ∧
      s' = { s with
        wire := w
        received := if r.last = .eof then s.received + 1 else s.received
        clients := Function.update s.clients k ((s.clients k).handleDownstreamWrite r) } := by
  unfold proxyStep at h
  dsimp only at h
  split at h
  · rename_i hw
    obtain ⟨⟨r, w⟩, hr, h⟩ := Option.bind_eq_some_iff.1 h
    dsimp only at h
    split at h
    · cases h
    · rename_i hlast
      exact ⟨r, w, hw, hr, hlast, (Option.some.inj h).symm⟩
  · cases h

theorem proxyStep_accept (h : p.proxyStep s .accept = some s') :
    s.accepted < s.conns ∧ s' = { s with
      servers := Function.update s.servers s.accepted
        { s.servers s.accepted with toBridge := (s.servers s.accepted).start }
      accepted := s.accepted + 1 } := by
  unfold proxyStep at h
  dsimp only at h
  split at h
  · rename_i hlt
    exact ⟨hlt, (Option.some.inj h).symm⟩
  · cases h

theorem proxyStep_send (h : p.proxyStep s (.send j q) = some s') :
    ∃ w, (s.servers j).response = .reading true ∧ Buffered q ∧ p.pipeSend s.wire q = some w ∧ s' = { s with
      wire := w
      files := s.files ++ [(j, q)]
      servers := Function.update s.servers j ((s.servers j).handleUpstreamRead q) } := by
  unfold proxyStep at h
  dsimp only at h
  split at h
  · rename_i hc
    obtain ⟨w, hw, rfl⟩ := Option.map_eq_some_iff.1 h
    exact ⟨w, hc.1, hc.2, hw, rfl⟩
  · cases h

end Params
end Rabin
