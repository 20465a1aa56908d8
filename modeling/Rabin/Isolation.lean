import Rabin.Bridges
import Rabin.Lib.Lts
import Rabin.Lib.Tagged

/-!
# Which bridge a response goes to

No file says which connection it is for. What is written to the browsers stays with their own
connections in every run in which each call of `receive_file` is made by the bridge whose file is next
(`isolated_of_turns`); `Routed` is what holds in between.
-/

namespace Rabin
open Tagged

/-- What a bridge of `tcpproxy_client` has done with the bytes `recvd j` that came from its peer `j`. -/
structure ClientBridge.Served (recvd : ℕ → List UInt8) (b : ClientBridge) : Prop where
  fresh : b.peer = none → b.written = [] ∧ b.c = none
  given : ∀ j, b.peer = some j → b.written <+: recvd j
  held : ∀ j, b.peer = some j → b.isOpen = true → b.written ++ b.c.getD [] = recvd j
  used : ∀ ok, b.response = .writing ok → b.c = none

namespace ClientBridge
variable {recvd recvd' : ℕ → List UInt8} {b b' : ClientBridge}

theorem served_new : new.Served recvd :=
  ⟨fun _ => ⟨rfl, rfl⟩, (fun _ h => nomatch h), (fun _ h => nomatch h), fun _ _ => rfl⟩

theorem Served.congr (h : b.Served recvd) (hr : ∀ j, b.peer = some j → recvd' j = recvd j) : b.Served recvd' := by
  refine ⟨h.fresh, ?_, ?_, h.used⟩
  · intro j hj
    rw [hr j hj]
    exact h.given j hj
  · intro j hj ho
    rw [hr j hj]
    exact h.held j hj ho

theorem Served.move (h : b.Served recvd) {t : Bridge}
    (hr : (∀ ok, t.response ≠ .writing ok) ∨ t.response = b.response)
    (ho : t.isOpen = true → b.isOpen = true) : ({ b with toBridge := t } : ClientBridge).Served recvd := by
  refine ⟨h.fresh, h.given, fun j hj hto => h.held j hj (ho hto), ?_⟩
  intro ok hw
  rcases hr with hr | hr
  · exact absurd hw (hr ok)
  · exact h.used ok (hr.symm.trans hw)

theorem Served.upstreamRead (h : b.Served recvd) (hs : b.handleUpstreamRead = some b') :
    b'.Served recvd ∧ b'.peer = b.peer := by
  rcases handleUpstreamRead_cases hs with ⟨-, rfl⟩ | ⟨-, rfl⟩
  · refine ⟨⟨?_, ?_, ?_, fun _ _ => rfl⟩, rfl⟩
    · intro hp
      obtain ⟨hw, hc⟩ := h.fresh hp
      refine ⟨?_, rfl⟩
      dsimp only
      rw [hw, hc]
      exact ite_self _
    · intro j hj
      dsimp only
      split
      · rename_i ho
        exact ⟨[], (List.append_nil _).trans (h.held j hj ho)⟩
      · exact h.given j hj
    · intro j hj ho
      dsimp only
      rw [if_pos ho, h.held j hj ho]
      exact List.append_nil _
  · exact ⟨h.move (.inl fun _ => Chain.noConfusion) (fun ho => nomatch ho), rfl⟩

theorem Served.step (h : b.Served recvd) {a : ClientAct} (hs : b.step a = some b') :
    b'.Served recvd ∧ b'.peer = b.peer := by
  rcases step_cases hs with ⟨-, hr⟩ | ⟨t, rfl, ht⟩
  · exact h.upstreamRead hr
  · refine ⟨?_, rfl⟩
    rcases ht with ⟨_, -, ht⟩ | ⟨-, -, rfl⟩ | ⟨_, -, ht⟩ | ⟨_, -, ht⟩
    · obtain ⟨-, hr, ho⟩ := Bridge.handleUpstreamConnect_eq ht
      exact h.move (.inl hr) ho
    · exact h.move (.inl fun _ => Chain.noConfusion) (fun ho => nomatch ho)
    · obtain ⟨-, hr, ho⟩ := Bridge.handleDownstreamRead_eq ht
      exact h.move (.inr hr) ho
    · obtain ⟨-, hr, ho⟩ := Bridge.handleUpstreamWrite_eq ht
      exact h.move (.inr hr) ho

theorem Served.downstreamWrite (h : b.Served recvd) {j : ℕ} (hj : b.peer = some j) {ok : Bool}
    (hw : b.response = .writing ok) {r : Received} (hr : recvd' j = recvd j ++ r.file) :
    (b.handleDownstreamWrite r).Served recvd' := by
  refine ⟨?_, ?_, ?_, fun _ hw => nomatch hw⟩
  · intro hp
    rw [show b.peer = none from hp] at hj
    cases hj
  · intro i hi
    rw [show b.peer = some i from hi, Option.some.injEq] at hj
    subst hj
    rw [hr]
    exact (h.given i hi).trans (List.prefix_append ..)
  · intro i hi ho
    rw [show b.peer = some i from hi, Option.some.injEq] at hj
    subst hj
    have hheld := h.held i hi (Bool.and_elim_left ho)
    rw [h.used ok hw, Option.getD_none, List.append_nil] at hheld
    show b.written ++ r.file = recvd' i
    rw [hr, hheld]

end ClientBridge

namespace Proxies

/-- What has been received of the files that bridge `j` of `tcpproxy_server` read. -/
def recvd (s : Proxies) (j : ℕ) : List UInt8 := part j (s.files.take s.received)

/-- The next file is from the bridge that `receive_file` is called for. -/
def InTurn (s : Proxies) : ProxyAct → Prop
  | .receive k _ => ∃ f, s.files[s.received]? = some f ∧ (s.clients k).peer = some f.1
  | _ => True

end Proxies

namespace Params
variable (p : Params)

/-- No read of a call times out. -/
def Untimed (s : Proxies) : ProxyAct → Prop
  | .receive _ n => ∀ x ∈ p.pipeReceive s.wire n, x.1.last = .eof
  | _ => True

structure Routed (s : Proxies) : Prop where
  steady : p.Steady s.wire
  received_le : s.received ≤ s.files.length
  pending : s.wire.pending = (s.files.drop s.received).flatMap fun f => p.fileItems f.2
  buffered : ∀ f ∈ s.files, Buffered f.2
  read : ∀ j, (s.servers j).read = part j s.files
  served : ∀ k, (s.clients k).Served s.recvd
  /-- a connection is one bridge's alone -/
  peer_lt : ∀ k j, (s.clients k).peer = some j → j < s.conns
  peer_inj : ∀ k k' j, (s.clients k).peer = some j → (s.clients k').peer = some j → k = k'
  accepted_le : s.accepted ≤ s.conns
  unaccepted : ∀ j, s.accepted ≤ j → s.servers j = .new

variable {p} {s s' : Proxies}

theorem routed_init : p.Routed .init := by
  refine ⟨steady_init, Nat.le_refl _, rfl, ?_, fun _ => rfl, fun _ => ClientBridge.served_new, ?_, ?_, Nat.le_refl _,
    fun _ _ => rfl⟩
  · intro f hf
    cases hf
  · intro k j hj
    cases hj
  · intro k k' j hj
    cases hj

theorem isolated_of_routed (h : p.Routed s) : s.Isolated := by
  intro k
  split
  · rename_i hp
    exact ((h.served k).fresh hp).1
  · rename_i j hp
    rw [h.read j]
    exact ((h.served k).given j hp).trans part_take_prefix

theorem peer_update {k : ℕ} {b : ClientBridge} (hp : b.peer = (s.clients k).peer) (k' : ℕ) :
    (Function.update s.clients k b k').peer = (s.clients k').peer :=
  (Function.forall_update_iff s.clients fun k' b' => b'.peer = (s.clients k').peer).2 ⟨hp, fun _ _ => rfl⟩ k'

theorem Routed.clients (h : p.Routed s) {k : ℕ} {b : ClientBridge} (hb : b.Served s.recvd)
    (hp : b.peer = (s.clients k).peer) (n : ℕ) :
    p.Routed { s with clients := Function.update s.clients k b, browsers := n } := by
  have hpeer := peer_update hp
  refine ⟨h.steady, h.received_le, h.pending, h.buffered, h.read, ?_, ?_, ?_, h.accepted_le, h.unaccepted⟩
  · exact (Function.forall_update_iff s.clients fun _ b' => b'.Served s.recvd).2 ⟨hb, fun k' _ => h.served k'⟩
  · intro k' j hj
    exact h.peer_lt k' j ((hpeer k').symm.trans hj)
  · intro k' k'' j hj hj'
    exact h.peer_inj k' k'' j ((hpeer k').symm.trans hj) ((hpeer k'').symm.trans hj')

theorem Routed.servers (h : p.Routed s) {j : ℕ} {b : ServerBridge} (hb : b.read = (s.servers j).read) {n : ℕ}
    (hn : s.accepted ≤ n) (hn' : n ≤ s.conns) (hj : j < n) :
    p.Routed { s with servers := Function.update s.servers j b, accepted := n } := by
  refine ⟨h.steady, h.received_le, h.pending, h.buffered, ?_, h.served, h.peer_lt, h.peer_inj, hn', ?_⟩
  · rw [Function.forall_update_iff s.servers fun j' b' => b'.read = part j' s.files]
    exact ⟨hb.trans (h.read j), fun j' _ => h.read j'⟩
  · rw [Function.forall_update_iff s.servers fun j' b' => n ≤ j' → b' = .new]
    exact ⟨fun hle => absurd hj (Nat.not_lt.2 hle), fun j' _ hle => h.unaccepted j' (Nat.le_trans hn hle)⟩

theorem Routed.part_eq_nil (h : p.Routed s) {j : ℕ} (hj : s.accepted ≤ j) : part j s.files = [] := by
  rw [← h.read j, h.unaccepted j hj]
  rfl

theorem Routed.connect (h : p.Routed s) {k : ℕ} (hp : (s.clients k).peer = none) :
    p.Routed { s with
      clients := Function.update s.clients k { s.clients k with peer := some s.conns }
      conns := s.conns + 1 } := by
  have hnone : s.recvd s.conns = [] := by
    have hpre : s.recvd s.conns <+: part s.conns s.files := part_take_prefix
    rw [h.part_eq_nil h.accepted_le] at hpre
    exact List.prefix_nil.1 hpre
  obtain ⟨hw, hc⟩ := (h.served k).fresh hp
  refine ⟨h.steady, h.received_le, h.pending, h.buffered, h.read, ?_, ?_, ?_, Nat.le_succ_of_le h.accepted_le,
    h.unaccepted⟩
  · refine (Function.forall_update_iff s.clients fun _ b' => b'.Served s.recvd).2 ⟨?_, fun k' _ => h.served k'⟩
    refine ⟨(fun hp => nomatch hp), ?_, ?_, (h.served k).used⟩
    · rintro j ⟨⟩
      show (s.clients k).written <+: _
      rw [hw]
      exact List.nil_prefix
    · rintro j ⟨⟩ -
      show (s.clients k).written ++ (s.clients k).c.getD [] = _
      rw [hw, hc, hnone]
      rfl
  · rw [Function.forall_update_iff s.clients fun _ b' => ∀ j, b'.peer = some j → j < s.conns + 1]
    refine ⟨?_, fun k' _ j hj => Nat.lt_succ_of_lt (h.peer_lt k' j hj)⟩
    rintro j ⟨⟩
    exact Nat.lt_succ_self _
  · -- the new connection is no other bridge's
    have hnew : ∀ k', k' ≠ k → (s.clients k').peer ≠ some s.conns := by
      intro k' _ hj
      exact Nat.lt_irrefl _ (h.peer_lt k' _ hj)
    intro k' k'' j hj hj'
    dsimp only at hj hj'
    by_cases hk' : k' = k <;> by_cases hk'' : k'' = k
    · rw [hk', hk'']
    · rw [hk', Function.update_self] at hj
      rw [Function.update_of_ne hk''] at hj'
      cases hj
      exact absurd hj' (hnew k'' hk'')
    · rw [hk'', Function.update_self] at hj'
      rw [Function.update_of_ne hk'] at hj
      cases hj'
      exact absurd hj (hnew k' hk')
    · rw [Function.update_of_ne hk'] at hj
      rw [Function.update_of_ne hk''] at hj'
      exact h.peer_inj k' k'' j hj hj'

theorem Routed.send (h : p.Routed s) {j : ℕ} {q : List UInt8} (hj : (s.servers j).response ≠ .idle)
    (hq : Buffered q) {w : Pipe} (hw : p.pipeSend s.wire q = some w) :
    p.Routed { s with
      wire := w
      files := s.files ++ [(j, q)]
      servers := Function.update s.servers j ((s.servers j).handleUpstreamRead q) } := by
  obtain ⟨hw', hpend, -⟩ := h.steady.send hw
  have hlt : j < s.accepted := by
    refine Nat.lt_of_not_le fun hle => hj ?_
    rw [h.unaccepted j hle]
    rfl
  refine ⟨hw', ?_, ?_, ?_, ?_, ?_, h.peer_lt, h.peer_inj, h.accepted_le, ?_⟩
  · rw [List.length_append]
    exact Nat.le_add_right_of_le h.received_le
  · show w.pending = _
    rw [hpend, h.pending, List.drop_append_of_le_length h.received_le, List.flatMap_append, List.flatMap_singleton]
  · intro f hf
    rcases List.mem_append.1 hf with hf | hf
    · exact h.buffered f hf
    · rw [List.mem_singleton.1 hf]
      exact hq
  · rw [Function.forall_update_iff s.servers fun j' b' => b'.read = part j' (s.files ++ [(j, q)])]
    refine ⟨?_, fun j' hne => ?_⟩
    · rw [part_concat_self, ← h.read j]
      rfl
    · rw [part_concat_of_ne hne.symm]
      exact h.read j'
  · intro k
    refine (h.served k).congr fun j' _ => ?_
    show part j' ((s.files ++ [(j, q)]).take s.received) = _
    rw [List.take_append_of_le_length h.received_le]
    rfl
  · rw [Function.forall_update_iff s.servers fun j' b' => s.accepted ≤ j' → b' = .new]
    exact ⟨fun hle => absurd hlt (Nat.not_lt.2 hle), fun j' _ => h.unaccepted j'⟩

theorem Routed.receive (h : p.Routed s) {k n : ℕ} (ht : p.Untimed s (.receive k n)) (hg : s.InTurn (.receive k n))
    (hs : p.proxyStep s (.receive k n) = some s') : p.Routed s' := by
  rcases hg with ⟨⟨j, q⟩, hf, hk⟩
  obtain ⟨r, w, hwriting, hr, -, rfl⟩ := proxyStep_receive hs
  have hlast : r.last = .eof := ht (r, w) hr
  rw [if_pos hlast]
  obtain ⟨hlt, -⟩ := List.getElem?_eq_some_iff.1 hf
  -- what is in flight begins with the file
  have hdrop : s.files.drop s.received = (j, q) :: s.files.drop (s.received + 1) := by
    rw [List.drop_eq_getElem?_toList_append, hf]
    rfl
  have hpend := h.pending
  rw [hdrop, List.flatMap_cons] at hpend
  have hn := h.steady.length_le_of_eof hpend hr hlast
  rw [fileItems, List.append_assoc] at hpend
  have hchunks : (p.chunks q).length < 2 ^ 31 := by
    have hq : Buffered q := h.buffered _ (List.mem_of_getElem? hf)
    have hlen := p.length_chunks_le q
    have hle := hq.2
    omega
  obtain ⟨-, hfile, -, hw', hpend'⟩ := h.steady.receive_whole hpend hchunks hn hr
  rw [p.flatten_chunks] at hfile
  have hself : part j (s.files.take (s.received + 1)) = s.recvd j ++ r.file := by
    rw [part_take_succ_self hf, hfile]
    rfl
  have hpeer := peer_update (s := s) (k := k) (b := (s.clients k).handleDownstreamWrite r) rfl
  refine ⟨hw', hlt, hpend', h.buffered, h.read, ?_, ?_, ?_, h.accepted_le, h.unaccepted⟩
  · refine (Function.forall_update_iff s.clients fun _ b =>
      b.Served fun j => part j (s.files.take (s.received + 1))).2 ⟨(h.served k).downstreamWrite hk hwriting hself, ?_⟩
    intro k' hne
    refine (h.served k').congr fun j' hj' => part_take_succ_of_ne hf ?_
    rintro rfl
    exact hne (h.peer_inj k' k j hj' hk)
  · intro k' j' hj'
    exact h.peer_lt k' j' ((hpeer k').symm.trans hj')
  · intro k' k'' j' hj' hj''
    exact h.peer_inj k' k'' j' ((hpeer k').symm.trans hj') ((hpeer k'').symm.trans hj'')

end Params

namespace ServerBridge
variable {b b' : ServerBridge}

theorem step_eq {a : ServerAct} (hs : b.step a = some b') : b'.read = b.read ∧ b ≠ .new := by
  cases a with
  | upstreamConnect error =>
    obtain ⟨t, ht, hs⟩ := Option.map_eq_some_iff.1 hs
    subst hs
    obtain ⟨hc, -⟩ := Bridge.handleUpstreamConnect_eq ht
    refine ⟨rfl, ?_⟩
    rintro rfl
    cases hc
  | upstreamReadError =>
    unfold step at hs
    dsimp only at hs
    split at hs
    · rename_i hr
      cases hs
      refine ⟨rfl, ?_⟩
      rintro rfl
      cases hr
    · cases hs
  | downstreamWrite =>
    rw [step, handleDownstreamWrite] at hs
    refine ⟨?_, ?_⟩
    · split at hs <;> cases hs <;> rfl
    · rintro rfl
      cases hs
  | downstreamRead q =>
    obtain ⟨t, ht, hs⟩ := Option.map_eq_some_iff.1 hs
    subst hs
    obtain ⟨hr, -⟩ := Bridge.handleDownstreamRead_eq ht
    refine ⟨rfl, ?_⟩
    rintro rfl
    exact hr rfl
  | upstreamWrite error =>
    obtain ⟨t, ht, hs⟩ := Option.map_eq_some_iff.1 hs
    subst hs
    obtain ⟨hr, -⟩ := Bridge.handleUpstreamWrite_eq ht
    refine ⟨rfl, ?_⟩
    rintro rfl
    exact hr rfl

end ServerBridge

namespace Params
variable {p : Params} {s s' : Proxies}

theorem Routed.step (h : p.Routed s) {a : ProxyAct} (ht : p.Untimed s a) (hg : s.InTurn a)
    (hs : p.proxyStep s a = some s') : p.Routed s' := by
  cases a with
  | acceptBrowser =>
    cases hs
    have hb := (h.served s.browsers).move (t := (s.clients s.browsers).start) (.inl fun _ => Chain.noConfusion) id
    exact h.clients hb rfl _
  | connect k =>
    obtain ⟨-, hp, rfl⟩ := proxyStep_connect hs
    exact h.connect hp
  | client k a =>
    obtain ⟨b, hb, hs⟩ := Option.map_eq_some_iff.1 hs
    subst hs
    obtain ⟨hserved, hpeer⟩ := (h.served k).step hb
    exact h.clients hserved hpeer s.browsers
  | receive k n => exact h.receive ht hg hs
  | accept =>
    obtain ⟨hlt, rfl⟩ := proxyStep_accept hs
    exact h.servers (b := { s.servers s.accepted with toBridge := (s.servers s.accepted).start }) rfl
      (Nat.le_succ _) hlt (Nat.lt_succ_self _)
  | server j a =>
    obtain ⟨b, hb, hs⟩ := Option.map_eq_some_iff.1 hs
    subst hs
    obtain ⟨hread, hnew⟩ := ServerBridge.step_eq hb
    have hlt : j < s.accepted := Nat.lt_of_not_le fun hle => hnew (h.unaccepted j hle)
    exact h.servers hread (Nat.le_refl _) h.accepted_le hlt
  | send j q =>
    obtain ⟨w, hreading, hq, hw, rfl⟩ := proxyStep_send hs
    exact h.send (by rw [hreading]; exact Chain.noConfusion) hq hw

theorem routed_run {as : List ProxyAct} (ht : Lts.Guarded p.proxyStep p.Untimed .init as)
    (hg : Lts.Guarded p.proxyStep Proxies.InTurn .init as) (hr : Lts.run p.proxyStep .init as = some s) :
    p.Routed s :=
  Lts.invariant_of_guarded (fun _ _ _ h hok hs => h.step hok.1 hok.2 hs) (ht.and hg) routed_init hr

/-- For every order of the handlers of both event loops. -/
theorem isolated_of_turns (p : Params) (as : List ProxyAct) (ht : Lts.Guarded p.proxyStep p.Untimed .init as)
    (hg : Lts.Guarded p.proxyStep Proxies.InTurn .init as) (hr : Lts.run p.proxyStep .init as = some s) :
    s.Isolated :=
  isolated_of_routed (routed_run ht hg hr)

/-- Two browsers, with a file of the first connection between two files of the second. -/
def takingTurns : List ProxyAct :=
  [.acceptBrowser, .acceptBrowser, .connect 0, .connect 1, .client 0 (.upstreamConnect false),
    .client 1 (.upstreamConnect false), .accept, .accept, .server 0 (.upstreamConnect false),
    .server 1 (.upstreamConnect false), .client 0 .upstreamRead, .client 1 .upstreamRead, .send 1 [98], .send 0 [97],
    .receive 1 27, .receive 0 27, .server 1 .downstreamWrite, .send 1 [99], .client 1 .upstreamRead, .receive 1 27,
    .client 0 .upstreamRead, .client 1 .upstreamRead]

theorem isolated_of_turns_small :
    ∃ s, Lts.run small.proxyStep .init takingTurns = some s ∧ (s.clients 0).written = [97] ∧
      (s.clients 1).written = [98, 99] ∧ s.Isolated := by
  have hg : Lts.Guarded small.proxyStep (fun s a => small.Untimed s a ∧ s.InTurn a) .init takingTurns := by
    iterate 14 refine Lts.guarded_cons ⟨trivial, trivial⟩ rfl ?_
    refine Lts.guarded_cons ⟨?_, (1, [98]), rfl, rfl⟩ rfl (Lts.guarded_cons ⟨?_, (0, [97]), rfl, rfl⟩ rfl ?_)
    · rintro _ ⟨⟩
      rfl
    · rintro _ ⟨⟩
      rfl
    iterate 3 refine Lts.guarded_cons ⟨trivial, trivial⟩ rfl ?_
    refine Lts.guarded_cons ⟨?_, (1, [99]), rfl, rfl⟩ rfl
      (Lts.guarded_cons ⟨trivial, trivial⟩ rfl (Lts.guarded_cons ⟨trivial, trivial⟩ rfl trivial))
    rintro _ ⟨⟩
    rfl
  exact ⟨_, rfl, by decide, by decide,
    small.isolated_of_turns _ (hg.mono fun _ _ h => h.1) (hg.mono fun _ _ h => h.2) rfl⟩

/-- Two browsers. The second one's server answers first, and the first browser is sent the answer. -/
theorem crossed_responses :
    ∃ (as : List ProxyAct) (s : Proxies), Lts.Guarded small.proxyStep small.Untimed .init as ∧
      Lts.run small.proxyStep .init as = some s ∧
      (s.clients 0).peer = some 0 ∧ (s.clients 0).written = [98] ∧ (s.servers 0).read = [] ∧ ¬ s.Isolated := by
  refine ⟨[.acceptBrowser, .acceptBrowser, .connect 0, .connect 1, .client 0 (.upstreamConnect false),
    .client 1 (.upstreamConnect false), .client 1 (.downstreamRead (some [71])), .client 1 (.upstreamWrite false),
    .accept, .accept, .server 0 (.upstreamConnect false), .server 1 (.upstreamConnect false),
    .server 1 (.downstreamRead (some [71])), .server 1 (.upstreamWrite false), .client 0 .upstreamRead,
    .client 1 .upstreamRead, .send 1 [98], .receive 0 27, .client 0 .upstreamRead], _, ?_, rfl, by decide, by decide,
    by decide, ?_⟩
  · iterate 17 refine Lts.guarded_cons trivial rfl ?_
    refine Lts.guarded_cons ?_ rfl (Lts.guarded_cons trivial rfl trivial)
    rintro _ ⟨⟩
    rfl
  · intro h
    have hp : [98] <+: ([] : List UInt8) := h 0
    exact absurd hp (by decide)

end Params
end Rabin
