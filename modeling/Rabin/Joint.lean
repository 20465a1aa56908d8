import Rabin.Chains
import Rabin.Isolation
import Rabin.Upstream

/-!
# Both proxies and the Rabin connection

The bridges of `tcpproxy_client` and `tcpproxy_server` with their pending operations, the connections between them,
and the one Rabin connection that all of them use. `Proxies` can do whatever they do (`simulated`), so that what holds
of its chains comes down to the handlers: if each call of `receive_file` is made by the bridge whose file is next,
every browser talks to its own server and to no other (`conversations`).
-/

namespace Rabin
open Proactor

structure Joint where
  tunnel : Tunnel
  /-- the Rabin connection -/
  wire : Pipe
  /-- the files that were sent, each with the bridge that read it, and how many were received to the end -/
  files : List (ℕ × List UInt8)
  received : ℕ

inductive JointAct
  /-- any handler that leaves the Rabin connection alone -/
  | other (a : TunnelAct)
  /-- `handle_downstream_write` of bridge `k` of `tcpproxy_client`, for its `i`-th pending operation. `receive_file`
  comes back or, `n` bytes on, times out -/
  | receive (k i n : ℕ)
  /-- `handle_upstream_read` of bridge `j` of `tcpproxy_server`, which has read `q` -/
  | send (j i : ℕ) (q : List UInt8)

/-- The handler calls `receive_file` or `send_file`. -/
def Tunnel.usesRabin (s : Tunnel) : TunnelAct → Bool
  | .client _ _ (.received _ _) => true
  | .server j i (.read _) => (s.servers j).pending[i]? = some (.readUp true)
  | _ => false

namespace Joint
variable (p : Params)

def init : Joint := ⟨.init, .init, [], 0⟩

def step (s : Joint) : JointAct → Option Joint
  | .other a => if s.tunnel.usesRabin a then none else (s.tunnel.step a).map fun t => { s with tunnel := t }
  | .receive k i n =>
    (p.pipeReceive s.wire n).bind fun (r, w) =>
      -- the exception ends the program
      if r.last = .outOfRange then none
      else (s.tunnel.step (.client k i (.received r.numBlocks r.file))).map fun t =>
        { s with tunnel := t, wire := w, received := if r.last = .eof then s.received + 1 else s.received }
  | .send j i q =>
    if (s.tunnel.servers j).pending[i]? = some (.readUp true) then
      (p.pipeSend s.wire q).bind fun w =>
        (s.tunnel.step (.server j i (.read q))).map fun t =>
          { s with tunnel := t, wire := w, files := s.files ++ [(j, q)] }
    else none

/-- The next file is for the bridge that calls `receive_file`, and no read of the call times out. -/
def InTurn (s : Joint) : JointAct → Prop
  | .receive k _ n => (∃ f, s.files[s.received]? = some f ∧ s.tunnel.conns[f.1]? = some k) ∧
      ∀ x ∈ p.pipeReceive s.wire n, x.1.last = .eof
  | _ => True

end Joint

/-! ### The chains of both proxies -/

theorem ClientEnds.not_at_new {s : ClientEnds} {o : Op} : ¬ s.At o .new := by
  rintro ⟨hreq, hres⟩
  cases o with
  | connect => cases hres.1
  | readUp _ => cases hres.1
  | writeDown _ _ _ => cases hres.1
  | readDown _ => cases hreq.1
  | writeUp _ _ _ => cases hreq.1

theorem ServerEnds.not_at_new {s : ServerEnds} {o : Op} : ¬ s.At o .new := by
  rintro ⟨hreq, hres⟩
  cases o with
  | connect => cases hres
  | readUp _ => cases hres
  | writeDown _ _ _ => cases hres
  | readDown _ => cases hreq.1
  | writeUp _ _ _ => cases hreq.1

namespace Tunnel

/-- The chains keep up with the handlers of all bridges, and know the connections. -/
structure Matches (s : Tunnel) (t : Proxies) : Prop where
  browsers : t.browsers = s.browsers
  conns : t.conns = s.conns.length
  accepted : t.accepted = s.accepted
  peer : ∀ k j, (t.clients k).peer = some j ↔ s.conns[j]? = some k
  clients : ∀ k, ClientEnds.Tracked (s.clients k) (t.clients k)
  servers : ∀ j, ServerEnds.Tracked (s.servers j) (t.servers j)
  newClients : ∀ k, s.browsers ≤ k → t.clients k = .new
  newServers : ∀ j, s.accepted ≤ j → t.servers j = .new

variable {p : Params} {s s' : Tunnel} {t : Proxies}

theorem matches_init : init.Matches .init where
  browsers := rfl
  conns := rfl
  accepted := rfl
  peer := by simp [Proxies.init, init, ClientBridge.new]
  clients _ := ⟨fun _ => Nat.zero_le 1, ⟨⟨rfl, List.prefix_rfl⟩, rfl, List.prefix_rfl⟩, fun _ ho => nomatch ho⟩
  servers _ := ⟨fun _ => Nat.zero_le 1, ⟨⟨rfl, List.prefix_rfl⟩, rfl⟩, fun _ ho => nomatch ho⟩
  newClients _ _ := rfl
  newServers _ _ := rfl

theorem getElem?_concat_eq_some {l : List ℕ} {a b i : ℕ} :
    (l ++ [a])[i]? = some b ↔ l[i]? = some b ∨ i = l.length ∧ a = b := by
  rcases Nat.lt_trichotomy i l.length with h | rfl | h
  · rw [List.getElem?_append_left h]
    simp [Nat.ne_of_lt h]
  · simp
  · rw [List.getElem?_eq_none (show (l ++ [a]).length ≤ i by simp; omega), List.getElem?_eq_none (Nat.le_of_lt h)]
    simp [Nat.ne_of_gt h]

theorem Matches.acceptBrowser (h : s.Matches t) (down up : DataBuffer) :
    Matches { s with
      clients := Function.update s.clients s.browsers ⟨.new down up, [.connect]⟩
      browsers := s.browsers + 1 } { t with
      clients := Function.update t.clients t.browsers
        { t.clients t.browsers with toBridge := (t.clients t.browsers).start }
      browsers := t.browsers + 1 } := by
  have hnew := h.newClients s.browsers (Nat.le_refl _)
  rw [h.browsers, hnew]
  refine ⟨rfl, h.conns, h.accepted, fun k j => ?_, fun k => ?_, h.servers, fun k hk => ?_, h.newServers⟩
  · rw [← h.peer k j]
    rcases eq_or_ne k s.browsers with rfl | hne
    · simp [hnew]
    · simp [hne]
  · rcases eq_or_ne k s.browsers with rfl | hne
    · dsimp only
      rw [Function.update_self, Function.update_self]
      exact ClientEnds.tracked_new down up none
    · simpa [hne] using h.clients k
  · have hne : k ≠ s.browsers := by dsimp only at hk; omega
    simpa [hne] using h.newClients k (Nat.le_of_succ_le hk)

theorem Matches.connect (h : s.Matches t) {k : ℕ} (hlt : k < s.browsers) (hpeer : (t.clients k).peer = none) :
    Matches { s with conns := s.conns ++ [k] } { t with
      clients := Function.update t.clients k { t.clients k with peer := some t.conns }
      conns := t.conns + 1 } := by
  refine ⟨h.browsers, by simp [h.conns], h.accepted, fun k' j => ?_, fun k' => ?_, h.servers, fun k' hk' => ?_,
    h.newServers⟩
  · rw [getElem?_concat_eq_some, ← h.peer k' j]
    rcases eq_or_ne k' k with rfl | hne
    · simp [hpeer, h.conns, eq_comm]
    · simp [hne, hne.symm]
  · rcases eq_or_ne k' k with rfl | hne
    · obtain ⟨he, hobj, hpend⟩ := h.clients k'
      dsimp only
      rw [Function.update_self]
      exact ⟨he, ⟨hobj.toAgrees, hobj.c, hobj.written⟩, hpend⟩
    · simpa [hne] using h.clients k'
  · have hne : k' ≠ k := by dsimp only at hk'; omega
    simpa [hne] using h.newClients k' hk'

theorem Matches.accept (h : s.Matches t) (down up : DataBuffer) :
    Matches { s with
      servers := Function.update s.servers s.accepted ⟨.new down up, [.connect]⟩
      accepted := s.accepted + 1 } { t with
      servers := Function.update t.servers t.accepted
        { t.servers t.accepted with toBridge := (t.servers t.accepted).start }
      accepted := t.accepted + 1 } := by
  rw [h.accepted, h.newServers s.accepted (Nat.le_refl _)]
  refine ⟨h.browsers, h.conns, rfl, h.peer, h.clients, fun j => ?_, h.newClients, fun j hj => ?_⟩
  · rcases eq_or_ne j s.accepted with rfl | hne
    · dsimp only
      rw [Function.update_self, Function.update_self]
      exact ServerEnds.tracked_new down up
    · simpa [hne] using h.servers j
  · have hne : j ≠ s.accepted := by dsimp only at hj; omega
    simpa [hne] using h.newServers j (Nat.le_of_succ_le hj)

theorem Matches.client (h : s.Matches t) {k : ℕ} {l : Loop ClientEnds Op} {b : ClientBridge} (hlt : k < s.browsers)
    (hl : ClientEnds.Tracked l b) (hb : b.peer = (t.clients k).peer) (w : Pipe) (n : ℕ) :
    Matches { s with clients := Function.update s.clients k l }
      { t with wire := w, received := n, clients := Function.update t.clients k b } := by
  refine ⟨h.browsers, h.conns, h.accepted, fun k' j => ?_, fun k' => ?_, h.servers, fun k' hk' => ?_, h.newServers⟩
  · rw [← h.peer k' j]
    rcases eq_or_ne k' k with rfl | hne
    · simp [hb]
    · simp [hne]
  · rcases eq_or_ne k' k with rfl | hne
    · simpa using hl
    · simpa [hne] using h.clients k'
  · have hne : k' ≠ k := by dsimp only at hk'; omega
    simpa [hne] using h.newClients k' hk'

theorem Matches.server (h : s.Matches t) {j : ℕ} {l : Loop ServerEnds Op} {b : ServerBridge} (hlt : j < s.accepted)
    (hl : ServerEnds.Tracked l b) (w : Pipe) (files : List (ℕ × List UInt8)) :
    Matches { s with servers := Function.update s.servers j l }
      { t with wire := w, files := files, servers := Function.update t.servers j b } := by
  refine ⟨h.browsers, h.conns, h.accepted, h.peer, h.clients, fun j' => ?_, h.newClients, fun j' hj' => ?_⟩
  · rcases eq_or_ne j' j with rfl | hne
    · simpa using hl
    · simpa [hne] using h.servers j'
  · have hne : j' ≠ j := by dsimp only at hj'; omega
    simpa [hne] using h.newServers j' hj'

theorem Matches.client_step (h : s.Matches t) {k i : ℕ} {e : Completion} (hs : s.step (.client k i e) = some s') :
    k < s.browsers ∧ ∃ l b, (t.clients k).Does b e ∧ b.peer = (t.clients k).peer ∧ ClientEnds.Tracked l b ∧
      s' = { s with clients := Function.update s.clients k l } := by
  rw [step, Option.ite_none_left_eq_some] at hs
  obtain ⟨hconn, hs⟩ := hs
  obtain ⟨l, hl, rfl⟩ := Option.map_eq_some_iff.1 hs
  obtain ⟨o, os, -, ho, hh, hnext⟩ := (h.clients k).step ClientEnds.frugal hl
  have hpeer : e = .connected → (t.clients k).peer ≠ none := by
    intro he
    obtain ⟨j, hj⟩ := List.mem_iff_getElem?.1 (by_contra fun hk => hconn ⟨he, hk⟩)
    simp [(h.peer k j).2 hj]
  obtain ⟨b, hb⟩ := ClientEnds.handle_simulated (h.clients k).obj ho hpeer hh
  refine ⟨?_, l, b, hb.does, hb.peer, hnext b (hb.keeps hh), rfl⟩
  by_contra hk
  rw [h.newClients k (Nat.le_of_not_lt hk)] at ho
  exact ClientEnds.not_at_new ho

theorem Matches.server_step (h : s.Matches t) {j i : ℕ} {e : Completion} (hs : s.step (.server j i e) = some s') :
    j < s.accepted ∧ ∃ l b o, (s.servers j).pending[i]? = some o ∧ (t.servers j).Does b o e ∧
      ServerEnds.Tracked l b ∧ s' = { s with servers := Function.update s.servers j l } := by
  rw [step, Option.ite_none_right_eq_some] at hs
  obtain ⟨l, hl, rfl⟩ := Option.map_eq_some_iff.1 hs.2
  obtain ⟨o, os, hget, ho, hh, hnext⟩ := (h.servers j).step ServerEnds.frugal hl
  obtain ⟨b, hdoes, hk⟩ := ServerEnds.handle_simulated (h.servers j).obj ho hh
  refine ⟨?_, l, b, o, hget, hdoes, hnext b hk, rfl⟩
  by_contra hj
  rw [h.newServers j (Nat.le_of_not_lt hj)] at ho
  exact ServerEnds.not_at_new ho

end Tunnel

namespace Joint

structure Matches (s : Joint) (t : Proxies) : Prop where
  tunnel : s.tunnel.Matches t
  wire : t.wire = s.wire
  files : t.files = s.files
  received : t.received = s.received

variable {p : Params} {s s' : Joint} {t : Proxies}

theorem Matches.other (h : s.Matches t) {a : TunnelAct} (hs : s.step p (.other a) = some s') :
    ∃ t', s'.Matches t' ∧ (t' = t ∨ ∃ b, p.proxyStep t b = some t' ∧ p.Untimed t b ∧ t.InTurn b) := by
  rw [step, Option.ite_none_left_eq_some] at hs
  obtain ⟨hrabin, hs⟩ := hs
  obtain ⟨u, hu, rfl⟩ := Option.map_eq_some_iff.1 hs
  cases a with
  | acceptBrowser down up =>
    cases hu
    exact ⟨_, ⟨h.tunnel.acceptBrowser down up, h.wire, h.files, h.received⟩,
      .inr ⟨.acceptBrowser, rfl, trivial, trivial⟩⟩
  | connect k =>
    rw [Tunnel.step, Option.ite_none_right_eq_some] at hu
    obtain ⟨⟨hlt, hk, hc⟩, hu⟩ := hu
    cases hu
    have hconnecting : (t.clients k).response = .connecting := ((h.tunnel.clients k).pending _ hc).2.1
    have hpeer : (t.clients k).peer = none := by
      rw [Option.eq_none_iff_forall_ne_some]
      intro j hj
      exact hk (List.mem_of_getElem? ((h.tunnel.peer k j).1 hj))
    exact ⟨_, ⟨h.tunnel.connect hlt hpeer, h.wire, h.files, h.received⟩,
      .inr ⟨.connect k, if_pos ⟨hconnecting, hpeer⟩, trivial, trivial⟩⟩
  | client k i e =>
    obtain ⟨hlt, l, b, hdoes, hpeer, hl, rfl⟩ := h.tunnel.client_step hu
    have he : ∀ n file, e ≠ .received n file := by
      rintro n file rfl
      exact hrabin rfl
    refine ⟨_, ⟨h.tunnel.client hlt hl hpeer t.wire t.received, h.wire, h.files, h.received⟩, ?_⟩
    rcases hdoes.step he with rfl | ⟨a, ha⟩
    · exact .inl (by rw [Function.update_eq_self])
    · exact .inr ⟨.client k a, by rw [Params.proxyStep, ha]; rfl, trivial, trivial⟩
  | accept down up =>
    rw [Tunnel.step, Option.ite_none_right_eq_some] at hu
    obtain ⟨hlt, hu⟩ := hu
    cases hu
    have hlt' : t.accepted < t.conns := by rwa [h.tunnel.accepted, h.tunnel.conns]
    exact ⟨_, ⟨h.tunnel.accept down up, h.wire, h.files, h.received⟩, .inr ⟨.accept, if_pos hlt', trivial, trivial⟩⟩
  | server j i e =>
    obtain ⟨hlt, l, b, o, hget, hdoes, hl, rfl⟩ := h.tunnel.server_step hu
    have he : (∀ q, e ≠ .read q) ∨ o ≠ .readUp true := by
      by_contra! hne
      obtain ⟨⟨q, rfl⟩, rfl⟩ := hne
      exact hrabin (by simp [Tunnel.usesRabin, hget])
    refine ⟨_, ⟨h.tunnel.server hlt hl t.wire t.files, h.wire, h.files, h.received⟩, ?_⟩
    rcases hdoes.step he with rfl | ⟨a, ha⟩
    · exact .inl (by rw [Function.update_eq_self])
    · exact .inr ⟨.server j a, by rw [Params.proxyStep, ha]; rfl, trivial, trivial⟩

theorem Matches.receive (h : s.Matches t) {k i n : ℕ} (hs : s.step p (.receive k i n) = some s') :
    ∃ t', s'.Matches t' ∧ p.proxyStep t (.receive k n) = some t' := by
  obtain ⟨⟨r, w⟩, hr, hs⟩ := Option.bind_eq_some_iff.1 hs
  rw [Option.ite_none_left_eq_some] at hs
  obtain ⟨hlast, hs⟩ := hs
  obtain ⟨u, hu, rfl⟩ := Option.map_eq_some_iff.1 hs
  obtain ⟨hlt, l, b, ⟨hwriting, rfl⟩, hpeer, hl, rfl⟩ := h.tunnel.client_step hu
  have hmatch := h.tunnel.client hlt hl hpeer w (if r.last = .eof then t.received + 1 else t.received)
  refine ⟨_, ⟨hmatch, rfl, h.files, ?_⟩, ?_⟩
  · dsimp only
    rw [h.received]
  · rw [Params.proxyStep, if_pos hwriting, h.wire, hr]
    exact if_neg hlast

theorem Matches.send (h : s.Matches t) {j i : ℕ} {q : List UInt8} (hs : s.step p (.send j i q) = some s') :
    ∃ t', s'.Matches t' ∧ p.proxyStep t (.send j q) = some t' := by
  rw [step, Option.ite_none_right_eq_some] at hs
  obtain ⟨hget, hs⟩ := hs
  obtain ⟨w, hw, hs⟩ := Option.bind_eq_some_iff.1 hs
  obtain ⟨u, hu, rfl⟩ := Option.map_eq_some_iff.1 hs
  obtain ⟨hlt, l, b, o, hget', hdoes, hl, rfl⟩ := h.tunnel.server_step hu
  rw [hget, Option.some.injEq] at hget'
  subst hget'
  obtain ⟨hreading, hq, rfl⟩ := hdoes
  refine ⟨_, ⟨h.tunnel.server hlt hl w (t.files ++ [(j, q)]), rfl, ?_, h.received⟩, ?_⟩
  · dsimp only
    rw [h.files]
  · rw [Params.proxyStep, if_pos ⟨hreading, hq⟩, h.wire, hw]
    rfl

theorem Matches.step (h : s.Matches t) {a : JointAct} (hs : s.step p a = some s') :
    ∃ t', s'.Matches t' ∧
      (t' = t ∨ ∃ b, p.proxyStep t b = some t' ∧ (s.InTurn p a → p.Untimed t b ∧ t.InTurn b)) := by
  cases a with
  | other a =>
    obtain ⟨t', h', he | ⟨b, hb, hok⟩⟩ := h.other hs
    · exact ⟨t', h', .inl he⟩
    · exact ⟨t', h', .inr ⟨b, hb, fun _ => hok⟩⟩
  | receive k i n =>
    obtain ⟨t', h', hb⟩ := h.receive hs
    refine ⟨t', h', .inr ⟨_, hb, ?_⟩⟩
    rintro ⟨⟨f, hf, hk⟩, heof⟩
    refine ⟨?_, f, ?_, (h.tunnel.peer k f.1).2 hk⟩
    · show ∀ x ∈ p.pipeReceive t.wire n, x.1.last = .eof
      rwa [h.wire]
    · rwa [h.files, h.received]
  | send j i q =>
    obtain ⟨t', h', hb⟩ := h.send hs
    exact ⟨t', h', .inr ⟨_, hb, fun _ => ⟨trivial, trivial⟩⟩⟩

variable (p)

/-- Whatever both proxies do with all their pending operations, `Proxies` can do too, with the same files on the same
Rabin connection; and if each call of `receive_file` was in turn it still is. -/
theorem simulated {acts : List JointAct} (hr : Lts.run (step p) init acts = some s) :
    ∃ bs t, Lts.run p.proxyStep .init bs = some t ∧ s.Matches t ∧
      (Lts.Guarded (step p) (InTurn p) init acts →
        Lts.Guarded p.proxyStep (fun t b => p.Untimed t b ∧ t.InTurn b) .init bs) :=
  Lts.simulation (fun _ _ _ _ h hs => h.step hs) ⟨Tunnel.matches_init, rfl, rfl, rfl⟩ hr

variable {p}

/-- The Rabin connection apart, what happens is a step of the bridges. -/
theorem tunnel_step {a : JointAct} (hs : s.step p a = some s') : ∃ b, s.tunnel.step b = some s'.tunnel := by
  cases a with
  | other a =>
    rw [step, Option.ite_none_left_eq_some] at hs
    obtain ⟨u, hu, rfl⟩ := Option.map_eq_some_iff.1 hs.2
    exact ⟨a, hu⟩
  | receive k i n =>
    obtain ⟨⟨r, w⟩, -, hs⟩ := Option.bind_eq_some_iff.1 hs
    rw [Option.ite_none_left_eq_some] at hs
    obtain ⟨u, hu, rfl⟩ := Option.map_eq_some_iff.1 hs.2
    exact ⟨_, hu⟩
  | send j i q =>
    rw [step, Option.ite_none_right_eq_some] at hs
    obtain ⟨w, -, hs⟩ := Option.bind_eq_some_iff.1 hs.2
    obtain ⟨u, hu, rfl⟩ := Option.map_eq_some_iff.1 hs
    exact ⟨_, hu⟩

/-- What a browser has been sent comes from the other end of its connection, and is all of it once all files have been
received and the bridge waits for the next. -/
theorem Matches.responses (h : s.Matches t) (ht : p.Routed t) {j k : ℕ} (hk : s.tunnel.conns[j]? = some k) :
    (s.tunnel.clients k).obj.written <+: (s.tunnel.servers j).obj.takenUp ∧
      (s.received = s.files.length → (s.tunnel.clients k).obj.isOpen = true →
        ∀ ok, .readUp ok ∈ (s.tunnel.clients k).pending →
          (s.tunnel.clients k).obj.written ++ (s.tunnel.clients k).obj.c.getD [] =
            (s.tunnel.servers j).obj.takenUp) := by
  have hpeer := (h.tunnel.peer k j).2 hk
  have hclient := (h.tunnel.clients k).obj
  have hread : Tagged.part j t.files = (s.tunnel.servers j).obj.takenUp :=
    (ht.read j).symm.trans (h.tunnel.servers j).obj.read
  refine ⟨?_, fun hall ho ok hpend => ?_⟩
  · rw [← hread]
    exact (hclient.written.trans ((ht.served k).given j hpeer)).trans Tagged.part_take_prefix
  · have hwritten : (s.tunnel.clients k).obj.written = (t.clients k).written :=
      ((h.tunnel.clients k).pending _ hpend).2.2
    have hheld := (ht.served k).held j hpeer (hclient.isOpen.trans ho)
    rw [hwritten, ← hclient.c, hheld, ← hread, Proxies.recvd, h.received, hall, ← h.files, List.take_length]

variable (p) in
/-- Every browser talks to its own server: a connection is one browser's, what has gone out at its other end is what
the browser has sent, and what the browser has been sent came in there, in the same order and complete once nothing is
on the way. A browser without a connection has been sent nothing. -/
theorem conversations {acts : List JointAct} (hg : Lts.Guarded (step p) (InTurn p) init acts)
    (hr : Lts.run (step p) init acts = some s) :
    s.tunnel.conns.Nodup ∧
      (∀ j k, s.tunnel.conns[j]? = some k →
        (s.tunnel.servers j).obj.forwarded <+: (s.tunnel.clients k).obj.taken ∧
        (s.tunnel.clients k).obj.written <+: (s.tunnel.servers j).obj.takenUp ∧
        (s.received = s.files.length → (s.tunnel.clients k).obj.isOpen = true →
          ∀ ok, .readUp ok ∈ (s.tunnel.clients k).pending →
            (s.tunnel.clients k).obj.written ++ (s.tunnel.clients k).obj.c.getD [] =
              (s.tunnel.servers j).obj.takenUp)) ∧
      ∀ k ∉ s.tunnel.conns, (s.tunnel.clients k).obj.written = [] := by
  have h0 : init.Matches .init := ⟨Tunnel.matches_init, rfl, rfl, rfl⟩
  obtain ⟨bs, t, hrun, h, hguard⟩ := Lts.simulation (R := Matches) (fun _ _ _ _ h hs => h.step hs) h0 hr
  have ht : p.Routed t :=
    Params.routed_run ((hguard hg).mono fun _ _ h => h.1) ((hguard hg).mono fun _ _ h => h.2) hrun
  have hin : s.tunnel.InOrder := Lts.invariant (I := fun s => s.tunnel.InOrder) (fun s a s' h hs => by
    obtain ⟨b, hb⟩ := tunnel_step hs
    exact h.step hb) Tunnel.inOrder_init hr
  refine ⟨hin.nodup, fun j k hk => ⟨?_, h.responses ht hk⟩, fun k hk => ?_⟩
  · exact ((hin.servers j).relayed.forwarded.trans (hin.arrived j k hk)).trans (hin.clients k).relayed.1
  · have hpeer : (t.clients k).peer = none := by
      rw [Option.eq_none_iff_forall_ne_some]
      intro j hj
      exact hk (List.mem_of_getElem? ((h.tunnel.peer k j).1 hj))
    have hpre := (h.tunnel.clients k).obj.written
    rw [((ht.served k).fresh hpeer).1] at hpre
    exact List.prefix_nil.1 hpre

/-- Two browsers, with a file of the first connection between two files of the second. -/
def takingTurns : List JointAct :=
  [.other (.acceptBrowser .zero .zero), .other (.acceptBrowser .zero .zero), .other (.connect 0), .other (.connect 1),
    .other (.client 0 0 .connected), .other (.client 1 0 .connected), .other (.accept .zero .zero),
    .other (.accept .zero .zero), .other (.server 0 0 .connected), .other (.server 1 0 .connected),
    .other (.client 0 0 (.read [])), .other (.client 1 0 (.read [])), .send 1 0 [98], .send 0 0 [97],
    .receive 1 1 27, .receive 0 1 27, .other (.server 1 1 .finished), .send 1 1 [99],
    .other (.client 1 1 (.read [])), .other (.client 1 1 (.wrote 1)), .receive 1 1 27,
    .other (.client 0 1 (.read [])), .other (.client 1 1 (.read [])), .other (.client 1 1 (.wrote 1)),
    .other (.client 0 1 (.wrote 1))]

theorem simulated_small :
    ∃ s bs t, Lts.run (step .small) init takingTurns = some s ∧ (s.tunnel.clients 0).obj.written = [97] ∧
      (s.tunnel.clients 1).obj.written = [98, 99] ∧ Lts.run Params.small.proxyStep .init bs = some t ∧
      s.Matches t := by
  obtain ⟨s, hr, h0, h1⟩ : ∃ s, Lts.run (step .small) init takingTurns = some s ∧
      (s.tunnel.clients 0).obj.written = [97] ∧ (s.tunnel.clients 1).obj.written = [98, 99] := ⟨_, rfl, rfl, rfl⟩
  obtain ⟨bs, t, hrun, h, -⟩ := simulated .small hr
  exact ⟨s, bs, t, hr, h0, h1, hrun, h⟩

theorem conversations_small :
    ∃ s, Lts.run (step .small) init takingTurns = some s ∧
      (s.tunnel.clients 0).obj.written = [97] ∧ [97] <+: (s.tunnel.servers 0).obj.takenUp ∧
      (s.tunnel.clients 1).obj.written = [98, 99] ∧ [98, 99] <+: (s.tunnel.servers 1).obj.takenUp := by
  have hg : Lts.Guarded (step .small) (InTurn .small) init takingTurns := by
    iterate 14 refine Lts.guarded_cons trivial rfl ?_
    refine Lts.guarded_cons ⟨⟨(1, [98]), rfl, rfl⟩, ?_⟩ rfl (Lts.guarded_cons ⟨⟨(0, [97]), rfl, rfl⟩, ?_⟩ rfl ?_)
    · rintro _ ⟨⟩
      rfl
    · rintro _ ⟨⟩
      rfl
    iterate 4 refine Lts.guarded_cons trivial rfl ?_
    refine Lts.guarded_cons ⟨⟨(1, [99]), rfl, rfl⟩, ?_⟩ rfl ?_
    · rintro _ ⟨⟩
      rfl
    iterate 4 refine Lts.guarded_cons trivial rfl ?_
    trivial
  obtain ⟨s, hr, h0, h1, hconns⟩ : ∃ s, Lts.run (step .small) init takingTurns = some s ∧
      (s.tunnel.clients 0).obj.written = [97] ∧ (s.tunnel.clients 1).obj.written = [98, 99] ∧
      s.tunnel.conns = [0, 1] := ⟨_, rfl, rfl, rfl, rfl⟩
  have hconv := (conversations .small hg hr).2.1
  have hpre0 := (hconv 0 0 (by rw [hconns]; rfl)).2.1
  have hpre1 := (hconv 1 1 (by rw [hconns]; rfl)).2.1
  rw [h0] at hpre0
  rw [h1] at hpre1
  exact ⟨s, hr, h0, hpre0, h1, hpre1⟩

end Joint
end Rabin
