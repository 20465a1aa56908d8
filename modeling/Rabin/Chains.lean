import Mathlib.Logic.Relation
import Rabin.Handlers

/-!
# Handlers and chains

A `Bridge` has a program counter for each direction, and takes a write as one step. The handlers with their pending
operations refine it: what they do in a run, the chains can do (`client_simulated`, `server_simulated`), the pieces of
a write being steps of the handlers alone. To the browser a chain has written all of a write that is under way, and
to the upstream socket nothing of it.
-/

namespace Rabin
open Proactor

/-- What a chain of requests does. -/
inductive Bridge.RequestMove (b : Bridge) : Bridge → Prop
  | downstreamRead {b' : Bridge} (q : Option (List UInt8)) (h : b.handleDownstreamRead q = some b') : RequestMove b b'
  | upstreamWrite {b' : Bridge} (e : Bool) (h : b.handleUpstreamWrite e = some b') : RequestMove b b'

namespace Ends

/-- The program counter of the requests says which operation is pending. -/
def RequestAt (s : Ends) (b : Bridge) : Op → Prop
  | .connect => b.forwarded = s.forwarded
  | .readDown ok => b.request = .reading ok ∧ b.forwarded = s.forwarded
  | .writeUp ok len sent =>
    b.request = .writing ok ∧ b.downstreamData = s.downstreamData.bytes.take len ∧ sent ≤ len ∧
      b.forwarded ++ b.downstreamData.take sent = s.forwarded
  | _ => True

structure Agrees (s : Ends) (b : Bridge) : Prop where
  isOpen : b.isOpen = s.isOpen
  forwarded : b.forwarded <+: s.forwarded

variable {s s' : Ends} {b b' : Bridge} {o : Op} {e : Completion} {os : List Op}

theorem requestAt_of_response (h : o.use .request = 0) : s.RequestAt b o := by
  cases o with
  | connect => cases h
  | readUp _ => trivial
  | writeDown _ _ _ => trivial
  | readDown _ => cases h
  | writeUp _ _ _ => cases h

theorem RequestAt.congr (h : s.RequestAt b o) (hs : s'.forwarded = s.forwarded)
    (hd : s'.downstreamData = s.downstreamData) (hb : b'.forwarded = b.forwarded) (hr : b'.request = b.request)
    (hbd : b'.downstreamData = b.downstreamData) : s'.RequestAt b' o := by
  cases o with
  | connect => exact hb.trans (h.trans hs.symm)
  | readUp _ => trivial
  | writeDown _ _ _ => trivial
  | readDown _ => exact ⟨hr.trans h.1, hb.trans (h.2.trans hs.symm)⟩
  | writeUp _ _ _ =>
    refine ⟨hr.trans h.1, ?_, h.2.2.1, ?_⟩
    · rw [hbd, hd]
      exact h.2.1
    · rw [hb, hbd, hs]
      exact h.2.2.2

theorem handleRequest_simulated (hb : s.Agrees b) (h : s.RequestAt b o) (hh : s.handleRequest o e = some (s', os)) :
    ∃ b', (b' = b ∨ b.RequestMove b') ∧ b'.response = b.response ∧ s'.Agrees b' ∧ ∀ o' ∈ os, s'.RequestAt b' o' := by
  rcases handleRequest_cases hh with ⟨h1, h2, rfl, rfl, rfl⟩ | ⟨q, hq, rfl, rfl, rfl, rfl⟩ |
    ⟨len, sent, k, rfl, rfl, hk, rfl, rfl⟩ | ⟨len, rfl, rfl, rfl, rfl⟩
  · have hmove : b.RequestMove { b.close with request := .done } := by
      cases o with
      | connect => cases h2
      | readUp _ => cases h1
      | writeDown _ _ _ => cases h1
      | readDown ok =>
        have hr : b.request = .reading ok := h.1
        exact .downstreamRead none (by simp only [Bridge.handleDownstreamRead, hr])
      | writeUp ok _ _ =>
        have hr : b.request = .writing ok := h.1
        exact .upstreamWrite true (by simp only [Bridge.handleUpstreamWrite, hr])
    exact ⟨_, .inr hmove, rfl, ⟨rfl, hb.forwarded⟩, fun _ ho => nomatch ho⟩
  · have hmove : b.RequestMove { b with request := .writing b.isOpen, downstreamData := q } :=
      .downstreamRead (some q) (by simp only [Bridge.handleDownstreamRead, h.1, if_pos hq])
    refine ⟨_, .inr hmove, rfl, ⟨hb.isOpen, hb.forwarded⟩, fun o' ho' => ?_⟩
    obtain rfl := List.mem_singleton.1 ho'
    refine ⟨congrArg Chain.writing hb.isOpen, (DataBuffer.take_fill _ hq.2).symm, Nat.zero_le _, ?_⟩
    rw [List.take_zero, List.append_nil]
    exact h.2
  · -- a piece of the write: the chain has not moved
    obtain ⟨hr, hd, -, hf⟩ := h
    have hpiece : b.forwarded ++ b.downstreamData.take (sent + k) =
        s.forwarded ++ (s.downstreamData.bytes.drop sent).take k := by
      rw [← hf, hd, List.append_assoc, List.take_take, List.take_take, Nat.min_eq_left hk,
        Nat.min_eq_left (by omega), List.take_add]
    refine ⟨b, .inl rfl, rfl, ⟨hb.isOpen, hb.forwarded.trans (List.prefix_append ..)⟩, fun o' ho' => ?_⟩
    obtain rfl := List.mem_singleton.1 ho'
    exact ⟨hr, hd, hk, hpiece⟩
  · obtain ⟨hr, hd, -, hf⟩ := h
    have hmove : b.RequestMove
        { b with request := .reading b.isOpen, forwarded := b.forwarded ++ b.downstreamData } :=
      .upstreamWrite false (by simp only [Bridge.handleUpstreamWrite, hr])
    rw [List.take_of_length_le (by rw [hd]; exact List.length_take_le ..)] at hf
    refine ⟨_, .inr hmove, rfl, ⟨hb.isOpen, ?_⟩, fun o' ho' => ?_⟩
    · exact hf ▸ List.prefix_rfl
    · obtain rfl := List.mem_singleton.1 ho'
      exact ⟨congrArg Chain.reading hb.isOpen, hf⟩

end Ends

/-- What a bridge of `tcpproxy_client` does. -/
inductive ClientBridge.Move (b : ClientBridge) : ClientBridge → Prop
  | step {b' : ClientBridge} (a : ClientAct) (h : b.step a = some b') : Move b b'
  | downstreamWrite (r : Received) (h : b.response = .writing true) : Move b (b.handleDownstreamWrite r)

namespace ClientBridge
variable {b b' : ClientBridge} {e : Completion}

/-- What it does when an operation is heard of: a `receive_file` that comes back, or else at most one step. -/
def Does (b b' : ClientBridge) : Completion → Prop
  | .received n file => b.response = .writing true ∧ b' = b.handleDownstreamWrite ⟨.eof, file, n, .empty, []⟩
  | _ => b' = b ∨ ∃ a, b.step a = some b'

theorem does_of_step (he : ∀ n file, e ≠ .received n file) (h : b' = b ∨ ∃ a, b.step a = some b') : b.Does b' e := by
  cases e with
  | received n file => exact absurd rfl (he n file)
  | _ => exact h

theorem Does.step (h : b.Does b' e) (he : ∀ n file, e ≠ .received n file) : b' = b ∨ ∃ a, b.step a = some b' := by
  cases e with
  | received n file => exact absurd rfl (he n file)
  | _ => exact h

theorem Does.move (h : b.Does b' e) : b' = b ∨ b.Move b' := by
  by_cases he : ∃ n file, e = .received n file
  · obtain ⟨n, file, rfl⟩ := he
    obtain ⟨hr, rfl⟩ := h
    exact .inr (.downstreamWrite _ hr)
  · rcases h.step fun n file hne => he ⟨n, file, hne⟩ with rfl | ⟨a, ha⟩
    · exact .inl rfl
    · exact .inr (.step a ha)

theorem step_of_request {t : Bridge} (h : b.toBridge.RequestMove t) :
    ∃ a, b.step a = some { b with toBridge := t } := by
  cases h with
  | downstreamRead q h => exact ⟨.downstreamRead q, by rw [step, h]; rfl⟩
  | upstreamWrite e h => exact ⟨.upstreamWrite e, by rw [step, h]; rfl⟩

end ClientBridge

namespace ClientEnds

/-- The program counter of the responses says which operation is pending. -/
def ResponseAt (s : ClientEnds) (b : ClientBridge) : Op → Prop
  | .connect => b.response = .connecting ∧ s.written = b.written
  | .readUp ok => b.response = .reading ok ∧ s.written = b.written
  | .writeDown ok len sent =>
    b.response = .writing ok ∧ sent ≤ len ∧
      (ok = true → s.written ++ (s.upstreamData.bytes.take len).drop sent = b.written)
  | _ => True

structure Agrees (s : ClientEnds) (b : ClientBridge) : Prop extends s.toEnds.Agrees b.toBridge where
  c : b.c = s.c
  written : s.written <+: b.written

variable {s s' : ClientEnds} {b b' : ClientBridge} {o : Op} {e : Completion} {os : List Op}

theorem responseAt_of_request (h : o.use .response = 0) : s.ResponseAt b o := by
  cases o with
  | connect => cases h
  | readUp _ => cases h
  | writeDown _ _ _ => cases h
  | readDown _ => trivial
  | writeUp _ _ _ => trivial

theorem ResponseAt.congr (h : s.ResponseAt b o) (hs : s'.written = s.written) (hu : s'.upstreamData = s.upstreamData)
    (hb : b'.written = b.written) (hr : b'.response = b.response) : s'.ResponseAt b' o := by
  cases o with
  | connect => exact ⟨hr.trans h.1, hs.trans (h.2.trans hb.symm)⟩
  | readUp _ => exact ⟨hr.trans h.1, hs.trans (h.2.trans hb.symm)⟩
  | writeDown ok _ _ =>
    refine ⟨hr.trans h.1, h.2.1, fun ho => ?_⟩
    rw [hs, hu, hb]
    exact h.2.2 ho
  | readDown _ => trivial
  | writeUp _ _ _ => trivial

/-- What the handler of an operation does, and what it leaves to the other direction. -/
structure Simulates (o : Op) (e : Completion) (os : List Op) (s' : ClientEnds) (b b' : ClientBridge) : Prop where
  does : b.Does b' e
  peer : b'.peer = b.peer
  agrees : s'.Agrees b'
  started : ∀ o' ∈ os, s'.RequestAt b'.toBridge o' ∧ s'.ResponseAt b' o'
  requests : o.use .request = 0 →
    b'.forwarded = b.forwarded ∧ b'.request = b.request ∧ b'.downstreamData = b.downstreamData
  responses : o.use .response = 0 → b'.written = b.written ∧ b'.response = b.response

/-- The other direction is where it was. -/
theorem Simulates.other (h : Simulates o e os s' b b') (hh : s.handle o e = some (s', os)) {o' : Op}
    (ha : ∀ d, 0 < o.use d → o'.use d = 0) (ho : s.RequestAt b.toBridge o' ∧ s.ResponseAt b o') :
    s'.RequestAt b'.toBridge o' ∧ s'.ResponseAt b' o' := by
  rcases handle_cases hh with ⟨t, ht, rfl⟩ | hresp
  · obtain ⟨h1, h0, hu, hw, -⟩ := Ends.handleRequest_frame ht
    obtain ⟨hbw, hbr⟩ := h.responses h0
    exact ⟨Ends.requestAt_of_response (ha .request (by omega)), ho.2.congr hw hu hbw hbr⟩
  · have h1 : 0 < o.use .response := by
      rcases hresp with ⟨h1, -⟩ | ⟨rfl, -⟩ | ⟨rfl, -⟩ | ⟨_, _, _, rfl, -⟩ | ⟨_, _, _, rfl, -⟩
      · omega
      all_goals exact Nat.one_pos
    obtain ⟨hf, -, hd⟩ := frame_of_response hh fun t ht => by
      have := (Ends.handleRequest_frame ht).2.1
      omega
    refine ⟨?_, responseAt_of_request (ha .response h1)⟩
    rcases Nat.eq_zero_or_pos (o.use .request) with h0 | h0
    · obtain ⟨hbf, hbr, hbd⟩ := h.requests h0
      exact ho.1.congr hf hd hbf hbr hbd
    · exact Ends.requestAt_of_response (ha .request h0)

variable (s o) in
/-- An operation that is pending. -/
def At (b : ClientBridge) : Prop := s.RequestAt b.toBridge o ∧ s.ResponseAt b o

/-- An operation of the responses fails, or its socket is closed. -/
theorem step_failed (hres : s.ResponseAt b o) (h1 : o.use .response = 1) (htrue : o ≠ .readUp true) :
    ∃ a, b.step a = some { b with toBridge := { b.close with response := .done } } := by
  cases o with
  | connect =>
    have hr : b.response = .connecting := hres.1
    exact ⟨.upstreamConnect true, by simp [ClientBridge.step, Bridge.handleUpstreamConnect, hr]⟩
  | readUp ok =>
    cases ok with
    | true => exact absurd rfl htrue
    | false =>
      have hr : b.response = .reading false := hres.1
      exact ⟨.upstreamRead, by simp only [ClientBridge.step, ClientBridge.handleUpstreamRead, hr]⟩
  | writeDown ok _ _ =>
    have hr : b.response = .writing ok := hres.1
    exact ⟨.downstreamWriteError, by simp only [ClientBridge.step, hr]⟩
  | readDown _ => cases h1
  | writeUp _ _ _ => cases h1

theorem upstreamRead_simulated (hb : s.Agrees b) (hres : s.ResponseAt b (.readUp true))
    (hr : s.handleUpstreamRead = some (s', os)) : ∃ b', Simulates (.readUp true) (.read []) os s' b b' := by
  have hr' : b.response = .reading true := hres.1
  have hstep : b.step .upstreamRead = some { b with
      c := none
      written := if b.isOpen then b.written ++ b.c.getD [] else b.written
      response := .writing b.isOpen } := by
    simp only [ClientBridge.step, ClientBridge.handleUpstreamRead, hr']
  have hprefix : s.written <+: if b.isOpen then b.written ++ b.c.getD [] else b.written := by
    split
    · exact hb.written.trans (List.prefix_append ..)
    · exact hb.written
  rcases handleUpstreamRead_cases hr with ⟨hnone, rfl, rfl⟩ | ⟨c, hlen, hsome, rfl, rfl⟩
  · refine ⟨_, .inr ⟨_, hstep⟩, rfl, ⟨⟨hb.isOpen, hb.forwarded⟩, hnone.symm, hprefix⟩, fun o' ho' => ?_,
      fun _ => ⟨rfl, rfl, rfl⟩, fun h => nomatch h⟩
    obtain rfl := List.mem_singleton.1 ho'
    refine ⟨trivial, congrArg Chain.writing hb.isOpen, Nat.le_refl 0, fun hok => ?_⟩
    show s'.written ++ _ = if b.isOpen then b.written ++ b.c.getD [] else b.written
    rw [hb.isOpen, if_pos hok, hb.c, hnone, hres.2]
    rfl
  · refine ⟨_, .inr ⟨_, hstep⟩, rfl, ⟨⟨hb.isOpen, hb.forwarded⟩, rfl, hprefix⟩, fun o' ho' => ?_,
      fun _ => ⟨rfl, rfl, rfl⟩, fun h => nomatch h⟩
    obtain rfl := List.mem_singleton.1 ho'
    refine ⟨trivial, congrArg Chain.writing hb.isOpen, Nat.zero_le _, fun hok => ?_⟩
    show s.written ++ ((s.upstreamData.fill c hlen).bytes.take c.length).drop 0 =
      if b.isOpen then b.written ++ b.c.getD [] else b.written
    rw [hb.isOpen, if_pos hok, hb.c, hsome, hres.2, DataBuffer.take_fill]
    rfl

theorem handle_simulated (hb : s.Agrees b) (ho : s.At o b) (hpeer : e = .connected → b.peer ≠ none)
    (hh : s.handle o e = some (s', os)) : ∃ b', Simulates o e os s' b b' := by
  obtain ⟨hreq, hres⟩ := ho
  rcases handle_cases hh with ⟨t, ht, rfl⟩ | ⟨h1, htrue, rfl, rfl, rfl⟩ | ⟨rfl, rfl, rfl, rfl⟩ | ⟨rfl, rfl, hr⟩ |
    ⟨len, sent, k, rfl, rfl, hk, rfl, rfl⟩ | ⟨len, n, file, rfl, rfl, hw⟩
  · obtain ⟨hu, h0, hup, hw, hload⟩ := Ends.handleRequest_frame ht
    obtain ⟨t', hmove, hresp, hag, hnew⟩ := Ends.handleRequest_simulated hb.toAgrees hreq ht
    refine ⟨{ b with toBridge := t' }, ClientBridge.does_of_step (Ends.ne_received_of_handleRequest ht) ?_, rfl,
      ⟨hag, hb.c, ?_⟩, fun o' ho' => ⟨hnew o' ho', ?_⟩, fun h => absurd h (by omega), fun _ => ⟨rfl, hresp⟩⟩
    · rcases hmove with rfl | hmove
      · exact .inl rfl
      · exact .inr (ClientBridge.step_of_request hmove)
    · show t.written <+: b.written
      rw [hw]
      exact hb.written
    · refine responseAt_of_request ?_
      have := Nat.le_trans (le_load ho') (hload .response)
      omega
  · exact ⟨_, .inr (step_failed hres h1 htrue), rfl, ⟨⟨rfl, hb.forwarded⟩, hb.c, hb.written⟩,
      fun _ ho => (nomatch ho), fun _ => ⟨rfl, rfl, rfl⟩, fun h => absurd h (by omega)⟩
  · have hstep : b.step (.upstreamConnect false) =
        some { b with response := .reading b.isOpen, request := .reading b.isOpen } := by
      simp [ClientBridge.step, Bridge.handleUpstreamConnect, hres.1, hpeer rfl]
    refine ⟨_, .inr ⟨_, hstep⟩, rfl, ⟨⟨hb.isOpen, hb.forwarded⟩, hb.c, hb.written⟩, fun o' ho' => ?_,
      fun h => (nomatch h), fun h => nomatch h⟩
    rcases List.mem_cons.1 ho' with rfl | ho'
    · exact ⟨trivial, congrArg Chain.reading hb.isOpen, hres.2⟩
    · obtain rfl := List.mem_singleton.1 ho'
      exact ⟨⟨congrArg Chain.reading hb.isOpen, hreq⟩, trivial⟩
  · exact upstreamRead_simulated hb hres hr
  · obtain ⟨hr, -, hw⟩ := hres
    have hpiece := (Ends.append_piece s.written s.upstreamData.bytes hk).trans (hw rfl)
    refine ⟨b, .inl rfl, rfl, ⟨⟨hb.isOpen, hb.forwarded⟩, hb.c, ⟨_, hpiece⟩⟩, fun o' ho' => ?_,
      fun _ => ⟨rfl, rfl, rfl⟩, fun h => nomatch h⟩
    obtain rfl := List.mem_singleton.1 ho'
    exact ⟨trivial, hr, hk, fun _ => hpiece⟩
  · cases hw
    obtain ⟨hr, -, hw⟩ := hres
    have hall := hw rfl
    rw [List.drop_of_length_le (List.length_take_le ..), List.append_nil] at hall
    refine ⟨_, ⟨hr, rfl⟩, rfl, ⟨⟨?_, hb.forwarded⟩, rfl, hb.written⟩, fun o' ho' => ?_, fun _ => ⟨rfl, rfl, rfl⟩,
      fun h => nomatch h⟩
    · show (b.isOpen && _) = (s.isOpen && _)
      rw [hb.isOpen]
    · obtain rfl := List.mem_singleton.1 ho'
      refine ⟨trivial, ?_, hall⟩
      show Chain.reading (b.isOpen && _) = Chain.reading (s.isOpen && _)
      rw [hb.isOpen]

theorem Simulates.keeps (h : Simulates o e os s' b b') (hh : s.handle o e = some (s', os)) :
    Keeps Op.use Agrees (fun s b o => s.At o b) s b o s' os b' :=
  ⟨h.agrees, h.started, fun _ ha ho => h.other hh ha ho⟩

/-- The chains of `b` keep up with the handlers. -/
abbrev Tracked (s : Loop ClientEnds Op) (b : ClientBridge) : Prop := Tracks Op.use Agrees (fun s b o => s.At o b) s b

theorem tracked_new (down up : DataBuffer) (peer : Option ℕ) :
    Tracked ⟨new down up, [.connect]⟩ { ClientBridge.new with toBridge := Bridge.new.start, peer := peer } := by
  refine ⟨Op.exclusive_connect, ⟨⟨rfl, List.prefix_rfl⟩, rfl, List.prefix_rfl⟩, fun o ho => ?_⟩
  obtain rfl := List.mem_singleton.1 ho
  exact ⟨rfl, rfl, rfl⟩

/-- Whatever the handlers of a bridge of `tcpproxy_client` do in a run, a `ClientBridge` can do too. It is in the same
place; of what it has written to the browser the end may be missing still, and what it has forwarded has been
forwarded. -/
theorem client_simulated (down up : DataBuffer) (peer : ℕ) {as : List (ℕ × Completion)} {s : Loop ClientEnds Op}
    (hr : Lts.run (step handle) ⟨new down up, [.connect]⟩ as = some s) :
    ∃ b, Relation.ReflTransGen ClientBridge.Move { ClientBridge.new with toBridge := Bridge.new.start, peer := peer } b ∧
      s.obj.Agrees b ∧ ∀ o ∈ s.pending, s.obj.RequestAt b.toBridge o ∧ s.obj.ResponseAt b o := by
  have h0 := tracked_new down up (some peer)
  obtain ⟨b, hmoves, h⟩ := simulation_of_handlers (M := ClientBridge.Move)
    (R := fun s b => s.Agrees b ∧ b.peer ≠ none) (P := fun s b o => s.At o b) frugal
    (fun s b o e s' os hb ho hh => by
      obtain ⟨b', h⟩ := handle_simulated hb.1 ho (fun _ => hb.2) hh
      exact ⟨b', h.does.move, ⟨h.agrees, h.peer ▸ hb.2⟩, h.started, (h.keeps hh).others⟩)
    hr ⟨h0.exclusive, ⟨h0.obj, Option.some_ne_none peer⟩, h0.pending⟩
  exact ⟨b, hmoves, h.obj.1, h.pending⟩

theorem client_simulated_small :
    ∃ s b, Lts.run (step handle) ⟨new .zero .zero, [.connect]⟩ [(0, .connected), (1, .read [71, 72]), (1, .wrote 1),
        (0, .read []), (1, .received 2 [73]), (1, .read [])] = some s ∧
      Relation.ReflTransGen ClientBridge.Move
        { ClientBridge.new with toBridge := Bridge.new.start, peer := some 0 } b ∧ s.obj.Agrees b := by
  obtain ⟨s, hr⟩ : ∃ s, Lts.run (step handle) ⟨new .zero .zero, [.connect]⟩ [(0, .connected), (1, .read [71, 72]),
      (1, .wrote 1), (0, .read []), (1, .received 2 [73]), (1, .read [])] = some s := ⟨_, rfl⟩
  obtain ⟨b, hmoves, hag, -⟩ := client_simulated .zero .zero 0 hr
  exact ⟨s, b, hr, hmoves, hag⟩

end ClientEnds

/-- What a bridge of `tcpproxy_server` does. -/
inductive ServerBridge.Move (b : ServerBridge) : ServerBridge → Prop
  | step {b' : ServerBridge} (a : ServerAct) (h : b.step a = some b') : Move b b'
  | upstreamRead (q : List UInt8) (h : b.response = .reading true) (hq : Buffered q) : Move b (b.handleUpstreamRead q)

namespace ServerBridge
variable {b b' : ServerBridge} {o : Op} {e : Completion}

/-- What it does when an operation is heard of: a read from the upstream socket that goes into `send_file`, or else at
most one step. -/
def Does (b b' : ServerBridge) : Op → Completion → Prop
  | .readUp true, .read q => b.response = .reading true ∧ Buffered q ∧ b' = b.handleUpstreamRead q
  | _, _ => b' = b ∨ ∃ a, b.step a = some b'

theorem does_of_step (h : (∀ q, e ≠ .read q) ∨ o ≠ .readUp true) (hs : b' = b ∨ ∃ a, b.step a = some b') :
    b.Does b' o e := by
  unfold Does
  split
  · rcases h with h | h
    · exact absurd rfl (h _)
    · exact absurd rfl h
  · exact hs

theorem Does.step (h : b.Does b' o e) (he : (∀ q, e ≠ .read q) ∨ o ≠ .readUp true) :
    b' = b ∨ ∃ a, b.step a = some b' := by
  unfold Does at h
  split at h
  · rcases he with he | he
    · exact absurd rfl (he _)
    · exact absurd rfl he
  · exact h

theorem Does.move (h : b.Does b' o e) : b' = b ∨ b.Move b' := by
  unfold Does at h
  split at h
  · obtain ⟨hr, hq, rfl⟩ := h
    exact .inr (.upstreamRead _ hr hq)
  · rcases h with rfl | ⟨a, ha⟩
    · exact .inl rfl
    · exact .inr (.step a ha)

theorem step_of_request {t : Bridge} (h : b.toBridge.RequestMove t) :
    ∃ a, b.step a = some { b with toBridge := t } := by
  cases h with
  | downstreamRead q h => exact ⟨.downstreamRead q, by rw [step, h]; rfl⟩
  | upstreamWrite e h => exact ⟨.upstreamWrite e, by rw [step, h]; rfl⟩

/-- The program counter of the responses says which operation is pending. -/
def ResponseAt (b : ServerBridge) : Op → Prop
  | .connect => b.response = .connecting
  | .readUp ok => b.response = .reading ok
  | .writeDown ok _ _ => b.response = .writing ok
  | _ => True

end ServerBridge

namespace ServerEnds

structure Agrees (s : ServerEnds) (b : ServerBridge) : Prop extends s.toEnds.Agrees b.toBridge where
  read : b.read = s.takenUp

variable {s s' : ServerEnds} {b b' : ServerBridge} {o : Op} {e : Completion} {os : List Op}

theorem responseAt_of_request (h : o.use .response = 0) : b.ResponseAt o := by
  cases o with
  | connect => cases h
  | readUp _ => cases h
  | writeDown _ _ _ => cases h
  | readDown _ => trivial
  | writeUp _ _ _ => trivial

theorem responseAt_congr (h : b.ResponseAt o) (hr : b'.response = b.response) : b'.ResponseAt o := by
  cases o with
  | connect => exact hr.trans h
  | readUp _ => exact hr.trans h
  | writeDown _ _ _ => exact hr.trans h
  | readDown _ => trivial
  | writeUp _ _ _ => trivial

variable (s o) in
/-- An operation that is pending. -/
def At (b : ServerBridge) : Prop := s.RequestAt b.toBridge o ∧ b.ResponseAt o

/-- An operation of the responses fails, or the browser's socket is closed. -/
theorem step_failed (hres : b.ResponseAt o) (h1 : o.use .response = 1)
    (hfalse : ∀ len sent, o ≠ .writeDown true len sent) :
    ∃ a, b.step a = some { b with toBridge := { b.close with response := .done } } := by
  cases o with
  | connect =>
    have hr : b.response = .connecting := hres
    exact ⟨.upstreamConnect true, by simp [ServerBridge.step, Bridge.handleUpstreamConnect, hr]⟩
  | readUp ok =>
    have hr : b.response = .reading ok := hres
    exact ⟨.upstreamReadError, by simp only [ServerBridge.step, hr]⟩
  | writeDown ok len sent =>
    cases ok with
    | true => exact absurd rfl (hfalse len sent)
    | false =>
      have hr : b.response = .writing false := hres
      exact ⟨.downstreamWrite, by simp only [ServerBridge.step, ServerBridge.handleDownstreamWrite, hr]⟩
  | readDown _ => cases h1
  | writeUp _ _ _ => cases h1

theorem handle_simulated (hb : s.Agrees b) (ho : s.At o b) (hh : s.handle o e = some (s', os)) :
    ∃ b', b.Does b' o e ∧ Keeps Op.use Agrees (fun s b o => s.At o b) s b o s' os b' := by
  obtain ⟨hreq, hres⟩ := ho
  rcases handle_cases hh with ⟨t, ht, rfl⟩ | ⟨h1, hfalse, rfl, rfl, rfl⟩ | ⟨rfl, rfl, rfl, rfl⟩ |
    ⟨q, hq, rfl, rfl, hr⟩ | ⟨len, rfl, rfl, rfl⟩
  · obtain ⟨hu, h0, -, -, hload⟩ := Ends.handleRequest_frame ht
    obtain ⟨t', hmove, hresp, hag, hnew⟩ := Ends.handleRequest_simulated hb.toAgrees hreq ht
    have hne : o ≠ .readUp true := by
      rintro rfl
      cases hu
    refine ⟨{ b with toBridge := t' }, ServerBridge.does_of_step (.inr hne) ?_, ⟨hag, hb.read⟩,
      fun o' ho' => ⟨hnew o' ho', ?_⟩, fun o' ha ho' => ?_⟩
    · rcases hmove with rfl | hmove
      · exact .inl rfl
      · exact .inr (ServerBridge.step_of_request hmove)
    · refine responseAt_of_request ?_
      have := Nat.le_trans (le_load ho') (hload .response)
      omega
    · exact ⟨Ends.requestAt_of_response (ha .request (by omega)), responseAt_congr ho'.2 hresp⟩
  · have hdoes := ServerBridge.does_of_step (o := o) (e := .error) (.inl fun _ => Completion.noConfusion)
      (.inr (step_failed hres h1 hfalse))
    refine ⟨_, hdoes, ⟨⟨rfl, hb.forwarded⟩, hb.read⟩, fun _ ho => (nomatch ho), fun o' ha ho' => ?_⟩
    exact ⟨ho'.1.congr rfl rfl rfl rfl rfl, responseAt_of_request (ha .response (by omega))⟩
  · have hr : b.response = .connecting := hres
    have hstep : b.step (.upstreamConnect false) =
        some { b with response := .reading b.isOpen, request := .reading b.isOpen } := by
      simp [ServerBridge.step, Bridge.handleUpstreamConnect, hr]
    refine ⟨_, .inr ⟨_, hstep⟩, ⟨⟨hb.isOpen, hb.forwarded⟩, hb.read⟩, fun o' ho' => ?_, fun o' ha _ => ?_⟩
    · rcases List.mem_cons.1 ho' with rfl | ho'
      · exact ⟨trivial, congrArg Chain.reading hb.isOpen⟩
      · obtain rfl := List.mem_singleton.1 ho'
        exact ⟨⟨congrArg Chain.reading hb.isOpen, hreq⟩, trivial⟩
    · exact ⟨Ends.requestAt_of_response (ha .request Nat.one_pos), responseAt_of_request (ha .response Nat.one_pos)⟩
  · cases hr
    refine ⟨_, ⟨hres, hq, rfl⟩, ⟨⟨hb.isOpen, hb.forwarded⟩, ?_⟩, fun o' ho' => ?_, fun o' ha ho' => ?_⟩
    · show b.read ++ q = s.takenUp ++ q
      rw [hb.read]
    · obtain rfl := List.mem_singleton.1 ho'
      exact ⟨trivial, congrArg Chain.writing hb.isOpen⟩
    · exact ⟨ho'.1.congr rfl rfl rfl rfl rfl, responseAt_of_request (ha .response Nat.one_pos)⟩
  · have hr : b.response = .writing true := hres
    have hstep : b.step .downstreamWrite = some { b with response := .reading b.isOpen } := by
      simp only [ServerBridge.step, ServerBridge.handleDownstreamWrite, hr]
    refine ⟨_, .inr ⟨_, hstep⟩, ⟨⟨hb.isOpen, hb.forwarded⟩, hb.read⟩, fun o' ho' => ?_, fun o' ha ho' => ?_⟩
    · obtain rfl := List.mem_singleton.1 ho'
      exact ⟨trivial, congrArg Chain.reading hb.isOpen⟩
    · exact ⟨ho'.1.congr rfl rfl rfl rfl rfl, responseAt_of_request (ha .response Nat.one_pos)⟩

/-- The chains of `b` keep up with the handlers. -/
abbrev Tracked (s : Loop ServerEnds Op) (b : ServerBridge) : Prop := Tracks Op.use Agrees (fun s b o => s.At o b) s b

theorem tracked_new (down up : DataBuffer) :
    Tracked ⟨new down up, [.connect]⟩ { ServerBridge.new with toBridge := Bridge.new.start } := by
  refine ⟨Op.exclusive_connect, ⟨⟨rfl, List.prefix_rfl⟩, rfl⟩, fun o ho => ?_⟩
  obtain rfl := List.mem_singleton.1 ho
  exact ⟨rfl, rfl⟩

/-- The same for a bridge of `tcpproxy_server`, which has read the same bytes from the upstream socket. -/
theorem server_simulated (down up : DataBuffer) {as : List (ℕ × Completion)} {s : Loop ServerEnds Op}
    (hr : Lts.run (step handle) ⟨new down up, [.connect]⟩ as = some s) :
    ∃ b, Relation.ReflTransGen ServerBridge.Move { ServerBridge.new with toBridge := Bridge.new.start } b ∧
      s.obj.Agrees b ∧ ∀ o ∈ s.pending, s.obj.RequestAt b.toBridge o ∧ b.ResponseAt o := by
  obtain ⟨b, hmoves, h⟩ := simulation_of_handlers (M := ServerBridge.Move) frugal
    (fun _ _ _ _ _ _ hb ho hh => by
      obtain ⟨b', hdoes, hk⟩ := handle_simulated hb ho hh
      exact ⟨b', hdoes.move, hk⟩)
    hr (tracked_new down up)
  exact ⟨b, hmoves, h.obj, h.pending⟩

theorem server_simulated_small :
    ∃ s b, Lts.run (step handle) ⟨new .zero .zero, [.connect]⟩ [(0, .connected), (0, .read [72, 73]), (0, .read [71]),
        (0, .finished)] = some s ∧
      Relation.ReflTransGen ServerBridge.Move { ServerBridge.new with toBridge := Bridge.new.start } b ∧
      s.obj.Agrees b := by
  obtain ⟨s, hr⟩ : ∃ s, Lts.run (step handle) ⟨new .zero .zero, [.connect]⟩ [(0, .connected), (0, .read [72, 73]),
      (0, .read [71]), (0, .finished)] = some s := ⟨_, rfl⟩
  obtain ⟨b, hmoves, hag, -⟩ := server_simulated .zero .zero hr
  exact ⟨s, b, hr, hmoves, hag⟩

end ServerEnds
end Rabin
