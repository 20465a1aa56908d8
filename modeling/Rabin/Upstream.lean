import Rabin.Handlers

/-!
# Requests between the proxies

The bridges of `tcpproxy_client` and `tcpproxy_server` with the connections between them, and the handlers of all
bridges in any order. A connection hands on the bytes in the order in which they were written, in pieces of any
length. What `receive_file` comes back with is left open. Each connection belongs to one bridge of either proxy, and
what goes out upstream of `tcpproxy_server` was sent by one browser, in this order (`requests_in_order`).
-/

namespace Rabin
open Proactor

structure Tunnel where
  clients : ℕ → Loop ClientEnds Op
  /-- how many browsers `tcpproxy_client` has accepted -/
  browsers : ℕ
  /-- the bridges of `tcpproxy_client` that are connected, in the order of their connections -/
  conns : List ℕ
  servers : ℕ → Loop ServerEnds Op
  /-- how many of the connections `tcpproxy_server` has accepted -/
  accepted : ℕ

inductive TunnelAct
  /-- `tcpproxy_client` accepts a browser, and makes a bridge with buffers that hold anything -/
  | acceptBrowser (down up : DataBuffer)
  | connect (k : ℕ)
  /-- the handler of the `i`-th pending operation of bridge `k` -/
  | client (k i : ℕ) (e : Completion)
  | accept (down up : DataBuffer)
  | server (j i : ℕ) (e : Completion)

namespace Tunnel

def init : Tunnel where
  clients := fun _ => ⟨.new .zero .zero, []⟩
  browsers := 0
  conns := []
  servers := fun _ => ⟨.new .zero .zero, []⟩
  accepted := 0

/-- What bridge `j` of `tcpproxy_server` reads next has been written to its connection. -/
def arrives (s : Tunnel) (j i : ℕ) (e : Completion) : Bool :=
  match (s.servers j).pending[i]?, e with
  | some (.readDown _), .read q =>
    s.conns[j]?.any fun k => ((s.servers j).obj.taken ++ q).isPrefixOf (s.clients k).obj.forwarded
  | _, _ => true

def step (s : Tunnel) : TunnelAct → Option Tunnel
  | .acceptBrowser down up =>
    some { s with
      clients := Function.update s.clients s.browsers ⟨.new down up, [.connect]⟩
      browsers := s.browsers + 1 }
  | .connect k =>
    if k < s.browsers ∧ k ∉ s.conns ∧ .connect ∈ (s.clients k).pending then
      some { s with conns := s.conns ++ [k] }
    else none
  | .client k i e =>
    if e = .connected ∧ k ∉ s.conns then none
    else (Proactor.step ClientEnds.handle (s.clients k) (i, e)).map fun b =>
      { s with clients := Function.update s.clients k b }
  | .accept down up =>
    if s.accepted < s.conns.length then
      some { s with
        servers := Function.update s.servers s.accepted ⟨.new down up, [.connect]⟩
        accepted := s.accepted + 1 }
    else none
  | .server j i e =>
    if s.arrives j i e then
      (Proactor.step ServerEnds.handle (s.servers j) (i, e)).map fun b =>
        { s with servers := Function.update s.servers j b }
    else none

end Tunnel

/-- What is forwarded stays forwarded. -/
theorem ClientEnds.forwarded_step {s s' : Loop ClientEnds Op} {a : ℕ × Completion}
    (h : Proactor.step ClientEnds.handle s a = some s') : s.obj.forwarded <+: s'.obj.forwarded := by
  obtain ⟨_, o, _, b', os, -, -, hh, rfl⟩ := step_cases h
  rcases handle_cases hh with ⟨t, ht, rfl⟩ | ⟨-, -, -, rfl, -⟩ | ⟨-, -, rfl, -⟩ | ⟨-, -, hr⟩ |
    ⟨_, _, _, -, -, -, -, rfl⟩ | ⟨_, _, _, -, -, hw⟩
  · rcases Ends.handleRequest_cases ht with ⟨-, -, -, rfl, -⟩ | ⟨_, _, -, -, -, rfl⟩ | ⟨_, _, _, -, -, -, -, rfl⟩ |
      ⟨_, -, -, -, rfl⟩
    · exact List.prefix_rfl
    · exact List.prefix_rfl
    · exact List.prefix_append ..
    · exact List.prefix_rfl
  · exact List.prefix_rfl
  · exact List.prefix_rfl
  · rcases handleUpstreamRead_cases hr with ⟨-, rfl, -⟩ | ⟨_, _, -, rfl, -⟩ <;> exact List.prefix_rfl
  · exact List.prefix_rfl
  · cases hw
    exact List.prefix_rfl

/-- The downstream socket is read by `handle_downstream_read` only. -/
theorem ServerEnds.taken_step {s s' : Loop ServerEnds Op} {i : ℕ} {e : Completion}
    (h : Proactor.step ServerEnds.handle s (i, e) = some s') :
    s'.obj.taken = s.obj.taken ∨
      ∃ q, s.pending[i]? = some (.readDown true) ∧ e = .read q ∧ s'.obj.taken = s.obj.taken ++ q := by
  obtain ⟨o, ho, h⟩ := Option.bind_eq_some_iff.1 h
  obtain ⟨⟨b', os⟩, hh, rfl⟩ := Option.map_eq_some_iff.1 h
  rcases handle_cases hh with ⟨t, ht, rfl⟩ | ⟨-, -, -, rfl, -⟩ | ⟨-, -, rfl, -⟩ | ⟨_, _, -, -, hr⟩ | ⟨_, -, rfl, -⟩
  · rcases Ends.handleRequest_cases ht with ⟨-, -, -, rfl, -⟩ | ⟨q, _, rfl, rfl, -, rfl⟩ |
      ⟨_, _, _, -, -, -, -, rfl⟩ | ⟨_, -, -, -, rfl⟩
    · exact .inl rfl
    · exact .inr ⟨q, ho, rfl, rfl⟩
    · exact .inl rfl
    · exact .inl rfl
  · exact .inl rfl
  · exact .inl rfl
  · cases hr
    exact .inl rfl
  · exact .inl rfl

namespace Tunnel

/-- What holds between two steps. -/
structure InOrder (s : Tunnel) : Prop where
  clients : ∀ k, ClientEnds.Sound (s.clients k)
  servers : ∀ j, ServerEnds.Sound (s.servers j)
  nodup : s.conns.Nodup
  lt_browsers : ∀ k ∈ s.conns, k < s.browsers
  accepted_le : s.accepted ≤ s.conns.length
  unaccepted : ∀ j, s.accepted ≤ j → (s.servers j).pending = [] ∧ (s.servers j).obj.taken = []
  arrived : ∀ j k, s.conns[j]? = some k → (s.servers j).obj.taken <+: (s.clients k).obj.forwarded

variable {s s' : Tunnel}

theorem inOrder_init : init.InOrder := by
  refine ⟨fun _ => ⟨fun _ => Nat.zero_le 1, ⟨List.prefix_rfl, List.prefix_rfl⟩, fun _ h => nomatch h⟩,
    fun _ => ⟨fun _ => Nat.zero_le 1, ⟨List.prefix_rfl, rfl, fun _ h => (nomatch h), rfl⟩, fun _ h => nomatch h⟩,
    List.nodup_nil, fun _ h => (nomatch h), Nat.le_refl 0, fun _ _ => ⟨rfl, rfl⟩, fun _ _ h => ?_⟩
  simp [init] at h

theorem arrives_read {j i k : ℕ} {q : List UInt8} {ok : Bool} (h : s.arrives j i (.read q) = true)
    (hp : (s.servers j).pending[i]? = some (.readDown ok)) (hk : s.conns[j]? = some k) :
    (s.servers j).obj.taken ++ q <+: (s.clients k).obj.forwarded := by
  simpa [arrives, hp, hk] using h

theorem InOrder.acceptBrowser (h : s.InOrder) (down up : DataBuffer) :
    InOrder { s with
      clients := Function.update s.clients s.browsers ⟨.new down up, [.connect]⟩
      browsers := s.browsers + 1 } := by
  refine ⟨fun k => ?_, h.servers, h.nodup, fun k hk => Nat.lt_succ_of_lt (h.lt_browsers k hk), h.accepted_le,
    h.unaccepted, fun j k hk => ?_⟩
  · rcases eq_or_ne k s.browsers with rfl | hne
    · simpa using ClientEnds.sound_new down up
    · simpa [hne] using h.clients k
  · have hlt := h.lt_browsers k (List.mem_of_getElem? hk)
    simpa [Nat.ne_of_lt hlt] using h.arrived j k hk

theorem InOrder.connect (h : s.InOrder) {k : ℕ} (hlt : k < s.browsers) (hk : k ∉ s.conns) :
    InOrder { s with conns := s.conns ++ [k] } := by
  refine ⟨h.clients, h.servers, ?_, fun k' hk' => ?_, ?_, h.unaccepted, fun j k' hk' => ?_⟩
  · exact List.nodup_append.2 ⟨h.nodup, List.nodup_singleton k, fun a ha b hb => by
      rintro rfl
      exact hk (List.mem_singleton.1 hb ▸ ha)⟩
  · rcases List.mem_append.1 hk' with hk' | hk'
    · exact h.lt_browsers k' hk'
    · rwa [List.mem_singleton.1 hk']
  · rw [List.length_append]
    exact Nat.le_add_right_of_le h.accepted_le
  · rcases Nat.lt_or_ge j s.conns.length with hj | hj
    · rw [List.getElem?_append_left hj] at hk'
      exact h.arrived j k' hk'
    · -- the connection is new
      rw [(h.unaccepted j (Nat.le_trans h.accepted_le hj)).2]
      exact List.nil_prefix

theorem InOrder.client (h : s.InOrder) {k : ℕ} {a : ℕ × Completion} {b : Loop ClientEnds Op}
    (hb : Proactor.step ClientEnds.handle (s.clients k) a = some b) :
    InOrder { s with clients := Function.update s.clients k b } := by
  refine ⟨fun k' => ?_, h.servers, h.nodup, h.lt_browsers, h.accepted_le, h.unaccepted, fun j k' hk' => ?_⟩
  · rcases eq_or_ne k' k with rfl | hne
    · have hrun : Lts.run (Proactor.step ClientEnds.handle) (s.clients k') [a] = some b := by simp [Lts.run, hb]
      simpa using (h.clients k').run hrun
    · simpa [hne] using h.clients k'
  · rcases eq_or_ne k' k with rfl | hne
    · simpa using (h.arrived j k' hk').trans (ClientEnds.forwarded_step hb)
    · simpa [hne] using h.arrived j k' hk'

theorem InOrder.accept (h : s.InOrder) (hlt : s.accepted < s.conns.length) (down up : DataBuffer) :
    InOrder { s with
      servers := Function.update s.servers s.accepted ⟨.new down up, [.connect]⟩
      accepted := s.accepted + 1 } := by
  refine ⟨h.clients, fun j => ?_, h.nodup, h.lt_browsers, hlt, fun j hj => ?_, fun j k hk => ?_⟩
  · rcases eq_or_ne j s.accepted with rfl | hne
    · simpa using ServerEnds.sound_new down up
    · simpa [hne] using h.servers j
  · have hne : j ≠ s.accepted := by dsimp only at hj; omega
    simpa [hne] using h.unaccepted j (Nat.le_of_succ_le hj)
  · rcases eq_or_ne j s.accepted with rfl | hne
    · simp [ServerEnds.new, Ends.new]
    · simpa [hne] using h.arrived j k hk

theorem InOrder.server (h : s.InOrder) {j i : ℕ} {e : Completion} {b : Loop ServerEnds Op} (ha : s.arrives j i e = true)
    (hb : Proactor.step ServerEnds.handle (s.servers j) (i, e) = some b) :
    InOrder { s with servers := Function.update s.servers j b } := by
  have htaken := ServerEnds.taken_step hb
  refine ⟨h.clients, fun j' => ?_, h.nodup, h.lt_browsers, h.accepted_le, fun j' hj' => ?_, fun j' k hk => ?_⟩
  · rcases eq_or_ne j' j with rfl | hne
    · have hrun : Lts.run (Proactor.step ServerEnds.handle) (s.servers j') [(i, e)] = some b := by
        simp [Lts.run, hb]
      simpa using (h.servers j').run hrun
    · simpa [hne] using h.servers j'
  · rcases eq_or_ne j' j with rfl | hne
    · have hnone : (s.servers j').pending[i]? = none := by rw [(h.unaccepted j' hj').1]; rfl
      simp [Proactor.step, hnone] at hb
    · simpa [hne] using h.unaccepted j' hj'
  · rcases eq_or_ne j' j with rfl | hne
    · rcases htaken with he | ⟨q, hp, rfl, he⟩
      · simpa [he] using h.arrived j' k hk
      · simpa [he] using arrives_read ha hp hk
    · simpa [hne] using h.arrived j' k hk

theorem InOrder.step (h : s.InOrder) {a : TunnelAct} (hs : s.step a = some s') : s'.InOrder := by
  cases a with
  | acceptBrowser down up =>
    cases hs
    exact h.acceptBrowser down up
  | connect k =>
    rw [Tunnel.step, Option.ite_none_right_eq_some] at hs
    obtain ⟨⟨hlt, hk, -⟩, hs⟩ := hs
    cases hs
    exact h.connect hlt hk
  | client k i e =>
    rw [Tunnel.step, Option.ite_none_left_eq_some] at hs
    obtain ⟨b, hb, rfl⟩ := Option.map_eq_some_iff.1 hs.2
    exact h.client hb
  | accept down up =>
    rw [Tunnel.step, Option.ite_none_right_eq_some] at hs
    obtain ⟨hlt, hs⟩ := hs
    cases hs
    exact h.accept hlt down up
  | server j i e =>
    rw [Tunnel.step, Option.ite_none_right_eq_some] at hs
    obtain ⟨ha, hs⟩ := hs
    obtain ⟨b, hb, rfl⟩ := Option.map_eq_some_iff.1 hs
    exact h.server ha hb

/-- Whatever the bridges of both proxies do, and whatever comes over the Rabin connection: a connection between the
proxies is one browser's alone. What its bridge of `tcpproxy_server` has written upstream has been read from that
browser, in this order, and it is all of it once nothing is on the way. -/
theorem requests_in_order {acts : List TunnelAct} (hr : Lts.run Tunnel.step .init acts = some s) :
    s.conns.Nodup ∧
      (∀ j k, s.conns[j]? = some k →
        (s.servers j).obj.forwarded <+: (s.clients k).obj.taken ∧
        ∀ ok ok', .readDown ok ∈ (s.clients k).pending → .readDown ok' ∈ (s.servers j).pending →
          (s.servers j).obj.taken = (s.clients k).obj.forwarded →
          (s.servers j).obj.forwarded = (s.clients k).obj.taken) ∧
      (∀ j, s.conns.length ≤ j → (s.servers j).obj.forwarded = []) := by
  have h : s.InOrder := Lts.invariant (fun _ _ _ h hs => h.step hs) inOrder_init hr
  refine ⟨h.nodup, fun j k hk => ⟨?_, fun ok ok' hc hs he => ?_⟩, fun j hj => ?_⟩
  · exact ((h.servers j).relayed.forwarded.trans (h.arrived j k hk)).trans (h.clients k).relayed.1
  · have h1 : (s.servers j).obj.forwarded = (s.servers j).obj.taken := (h.servers j).requests _ hs
    have h2 : (s.clients k).obj.forwarded = (s.clients k).obj.taken := ((h.clients k).holds _ hc).1
    rw [h1, he, h2]
  · have hnil := (h.servers j).relayed.forwarded
    rw [(h.unaccepted j (Nat.le_trans h.accepted_le hj)).2] at hnil
    exact List.prefix_nil.1 hnil

theorem requests_in_order_small :
    ∃ s, Lts.run Tunnel.step .init [.acceptBrowser .zero .zero, .connect 0, .client 0 0 .connected,
        .client 0 1 (.read [71, 72]), .client 0 1 (.wrote 1), .accept .zero .zero, .server 0 0 .connected,
        .server 0 1 (.read [71]), .server 0 1 (.wrote 1)] = some s ∧
      (s.servers 0).obj.forwarded <+: (s.clients 0).obj.taken := by
  obtain ⟨s, hr, hk⟩ : ∃ s, Lts.run Tunnel.step .init [.acceptBrowser .zero .zero, .connect 0,
      .client 0 0 .connected, .client 0 1 (.read [71, 72]), .client 0 1 (.wrote 1), .accept .zero .zero,
      .server 0 0 .connected, .server 0 1 (.read [71]), .server 0 1 (.wrote 1)] = some s ∧
      s.conns[0]? = some 0 := ⟨_, rfl, rfl⟩
  exact ⟨s, hr, ((requests_in_order hr).2.1 0 0 hk).1⟩

end Tunnel
end Rabin
