import Rabin.Relay
import Rabin.Requests
import Rabin.Pipe
import Rabin.Lib.Lts

/-!
# `psb` and `hrd` when reads time out

The two programs as one system. `hrd` takes the next browser while `psb` may still be at an earlier
response: a call of `receive_file` that returns 1 ends the request, whatever made it return. Requests
and responses stay paired as long as `hrd` can pass each request on and every timeout falls between two
blocks of one piece, behind a block of the same call, or where no response is to come
(`paired_of_timeouts`); `InStep` is what holds in between.
-/

namespace Rabin
open Reads Mirror

structure Pairing where
  /-- the Rabin connection -/
  wire : Pipe
  /-- the connections that `hrd` has made to `psb`: the browser each is for, and what was written on it -/
  conns : List (ℕ × List UInt8)
  /-- the responses `psb` is through with, connection by connection, and what it has received of the one it is at -/
  answered : List (List UInt8)
  upstream : Option (List UInt8)
  /-- `psb` is in the `read` of a connection on which nothing will come -/
  stuck : Bool
  /-- what was sent to the browsers `hrd` is through with, and to the one it is at -/
  served : List (List UInt8)
  browser : Option (List UInt8)
  /-- `blocks.at` has thrown in `hrd`, or the assertion of `receive_file` has failed -/
  aborted : Bool

inductive PairAct
  /-- `hrd` accepts a browser, whose request comes in as `c`; whether it can connect to `psb`, and what `write`
  returns -/
  | browser (c : Conn UInt8) (connected : Bool) (n : ℤ)
  /-- `psb` accepts the next connection; whether it can connect upstream, and what `write` returns -/
  | accept (connected : Bool) (n : ℤ)
  /-- `recv` returns a piece, or 0 -/
  | recv (q : List UInt8)
  | finish
  /-- `hrd` calls `receive_file`, which may time out after `n` bytes -/
  | receive (n : ℕ)
  /-- `fopen` returns `NULL` -/
  | noFile

namespace Pairing

def init : Pairing := ⟨.init, [], [], none, false, [], none, false⟩

def browsers (s : Pairing) : List (List UInt8) := s.served ++ s.browser.toList

def responses (s : Pairing) : List (List UInt8) := s.answered ++ s.upstream.toList

/-- What has arrived in response to the request of browser `k`. -/
def response (s : Pairing) (k : ℕ) : List UInt8 := (s.responses[(s.conns.map Prod.fst).idxOf k]?).getD []

/-- Each browser was sent a prefix of what has arrived of the response to its own request. -/
def Paired (s : Pairing) : Prop := ∀ (k : ℕ) (b : List UInt8), s.browsers[k]? = some b → b <+: s.response k

end Pairing

namespace Params
variable (p : Params)

def pairStep (s : Pairing) : PairAct → Option Pairing
  | .browser c connected n =>
    if s.browser = none then
      (Hrd.forwardRequest c).bind fun request =>
        if !connected then some { s with served := s.served ++ [couldNotConnect] }
        else if n ≤ 0 then
          some { s with
            conns := s.conns ++ [(s.served.length, [])]
            served := s.served ++ [couldNotWrite] }
        else if n ≤ request.length then
          some { s with
            conns := s.conns ++ [(s.served.length, request.take n.toNat)]
            browser := some [] }
        else none
    else none
  | .accept connected n =>
    if s.upstream = none ∧ !s.stuck then
      s.conns[s.answered.length]?.map fun (_, request) =>
        if request = [] then { s with stuck := true }
        -- the page goes to `hrd`, which does not read it, and no end mark is sent
        else if !connected || n ≤ 0 then { s with answered := s.answered ++ [[]] }
        else { s with upstream := some [] }
    else none
  | .recv q =>
    s.upstream.bind fun u =>
      if Piece q then (p.pipeSend s.wire q).map fun w => { s with wire := w, upstream := some (u ++ q) } else none
  | .finish =>
    s.upstream.bind fun u =>
      (p.pipeSend s.wire []).map fun w => { s with wire := w, answered := s.answered ++ [u], upstream := none }
  | .receive n =>
    s.browser.bind fun b =>
      if s.aborted then none
      else
        (p.pipeReceive s.wire n).map fun (r, w) =>
          if r.last = .outOfRange then { s with wire := w, aborted := true }
          else if 1 < r.numBlocks then { s with wire := w, browser := some (b ++ r.file) }
          else { s with wire := w, served := s.served ++ [b], browser := none }
  | .noFile => if s.browser.isSome ∧ !s.aborted then some { s with aborted := true } else none

/-- `psb` is through with all requests, and `hrd` with all that was sent. -/
structure Quiet (s : Pairing) : Prop where
  pending : s.wire.pending = []
  upstream : s.upstream = none
  answered : s.answered.length = s.conns.length

/-- `hrd` passes the request on. A call of `receive_file` comes to the end of a file, or times out between two of its
blocks or where nothing is to come. -/
def InTime (s : Pairing) : PairAct → Prop
  | .browser _ connected n => connected = true ∧ 0 < n
  | .receive n => p.WholeFile s.wire n ∨ p.BetweenBlocks s.wire n ∨ Quiet s ∧ n = 0
  | _ => True

/-- The items of files that are not empty, given by their blocks. -/
def fileParts (fs : List (List (List UInt8))) : List Item := fs.flatMap fun bs => bs.map .block ++ [.eof]

theorem fileParts_cons (bs : List (List UInt8)) (fs : List (List (List UInt8))) :
    fileParts (bs :: fs) = bs.map .block ++ .eof :: fileParts fs := by
  rw [fileParts, List.flatMap_cons, List.append_assoc]
  rfl

theorem fileParts_concat (fs : List (List (List UInt8))) (bs : List (List UInt8)) :
    fileParts (fs ++ [bs]) = fileParts fs ++ (bs.map .block ++ [.eof]) := by
  rw [fileParts, List.flatMap_append, List.flatMap_singleton]
  rfl

/-- The response `hrd` is at comes to `d` so far; `tail` is the mark behind it, if there is one. -/
def Owes (s : Pairing) (d : List UInt8) (tail : List Item) : Prop :=
  (s.answered = s.served ∧ s.upstream.getD [] = d ∧ tail = []) ∨
    (s.answered = s.served ++ [d] ∧ s.upstream = none ∧ (tail = [] ∨ tail = [.eof]))

/-- Each browser has a connection of its own, with a request on it. -/
structure Joined (s : Pairing) : Prop where
  fst_eq : s.conns.map Prod.fst = List.range s.browsers.length
  request_ne : ∀ c ∈ s.conns, c.2 ≠ []

/-- `psb` is at the request `hrd` is at, and what is in flight is the rest of its response. -/
def InStep (s : Pairing) : Prop :=
  match s.browser with
  | none => s.answered = s.served ∧ s.upstream = none ∧ s.wire.pending = []
  | some b => ∃ (fs : List (List (List UInt8))) (tail : List Item), (∀ bs ∈ fs, bs ≠ [] ∧ bs.length ≤ 1000) ∧
      s.wire.pending = fileParts fs ++ tail ∧ Owes s (b ++ fs.flatten.flatten) tail

variable {p} {s s' : Pairing}

theorem getElem?_append_toList {α : Type*} (l : List α) (o : Option α) : (l ++ o.toList)[l.length]? = o := by
  cases o <;> simp

theorem Joined.congr (h : Joined s) (h1 : s'.conns = s.conns) (h2 : s'.browsers.length = s.browsers.length) :
    Joined s' := ⟨by rw [h1, h2, h.fst_eq], by rw [h1]; exact h.request_ne⟩

theorem Joined.length_conns (h : Joined s) : s.conns.length = s.browsers.length := by
  have hlen := congrArg List.length h.fst_eq
  rwa [List.length_map, List.length_range] at hlen

/-- The connections are in the order of the browsers. -/
theorem Joined.response_eq (h : Joined s) {k : ℕ} (hk : k < s.browsers.length) :
    s.response k = (s.responses[k]?).getD [] := by
  have hidx : (List.range s.browsers.length).idxOf k = k := by
    have hget := (List.nodup_range (n := s.browsers.length)).idxOf_getElem k (by rwa [List.length_range])
    rwa [List.getElem_range] at hget
  rw [Pairing.response, h.fst_eq, hidx]

theorem paired_of_inStep (h : InStep s) (hj : Joined s) : s.Paired := by
  intro k x hk
  rw [hj.response_eq (List.getElem?_eq_some_iff.1 hk).1]
  unfold InStep at h
  rw [Pairing.browsers] at hk
  rw [Pairing.responses]
  cases hb : s.browser with
  | none =>
    rw [hb] at h hk
    rcases h with ⟨h1, h2, -⟩
    rw [h1, h2, hk]
    exact List.prefix_rfl
  | some b =>
    rw [hb] at h hk
    rcases h with ⟨fs, tail, -, -, h⟩
    by_cases hlt : k < s.served.length
    · rw [List.getElem?_append_left hlt] at hk
      rcases h with ⟨h1, -, -⟩ | ⟨h1, -, -⟩
      · rw [h1, List.getElem?_append_left hlt, hk]
        exact List.prefix_rfl
      · rw [h1, List.append_assoc, List.getElem?_append_left hlt, hk]
        exact List.prefix_rfl
    · -- the browser it is at
      have hk' : k = s.served.length := by
        have hlen := (List.getElem?_eq_some_iff.1 hk).1
        rw [List.length_append] at hlen
        exact Nat.le_antisymm (Nat.le_of_lt_succ hlen) (Nat.le_of_not_lt hlt)
      rw [hk', getElem?_append_toList, Option.some.injEq] at hk
      subst hk
      rcases h with ⟨h1, h2, -⟩ | ⟨h1, h2, -⟩
      · rw [h1, hk', getElem?_append_toList, h2]
        exact List.prefix_append ..
      · have hget := getElem?_append_toList s.served (some (b ++ fs.flatten.flatten))
        rw [h1, h2, hk', Option.toList_none, List.append_nil]
        rw [Option.toList_some] at hget
        rw [hget]
        exact List.prefix_append ..

theorem blocks_eof_inj {bs bs' : List (List UInt8)} {xs ys : List Item}
    (h : bs.map Item.block ++ .eof :: xs = bs'.map Item.block ++ .eof :: ys) : bs = bs' ∧ xs = ys := by
  induction bs generalizing bs' with
  | nil =>
    cases bs' with
    | nil =>
      cases h
      exact ⟨rfl, rfl⟩
    | cons b' bs' => cases h
  | cons b bs ih =>
    cases bs' with
    | nil => cases h
    | cons b' bs' =>
      rw [List.map_cons, List.map_cons, List.cons_append, List.cons_append, List.cons.injEq] at h
      rcases h with ⟨hb, h⟩
      rcases ih h with ⟨rfl, rfl⟩
      cases hb
      exact ⟨rfl, rfl⟩

theorem blocks_inside {bs bs' : List (List UInt8)} {b : List UInt8} {xs ys : List Item}
    (h : bs.map Item.block ++ .block b :: xs = bs'.map Item.block ++ .eof :: ys) :
    ∃ rest, bs' = bs ++ b :: rest ∧ xs = rest.map .block ++ .eof :: ys := by
  induction bs generalizing bs' with
  | nil =>
    cases bs' with
    | nil => cases h
    | cons b' bs' =>
      cases h
      exact ⟨bs', rfl, rfl⟩
  | cons c bs ih =>
    cases bs' with
    | nil => cases h
    | cons b' bs' =>
      rw [List.map_cons, List.map_cons, List.cons_append, List.cons_append, List.cons.injEq] at h
      rcases h with ⟨hb, h⟩
      rcases ih h with ⟨rest, rfl, rfl⟩
      cases hb
      exact ⟨rest, rfl, rfl⟩

theorem chunks_of_piece {q : List UInt8} (hq : Piece q) : p.chunks q ≠ [] ∧ (p.chunks q).length ≤ 1000 := by
  have hlen := p.length_chunks_le q
  have hle := hq.2
  exact ⟨p.chunks_ne_nil hq, by omega⟩

theorem pairStep_receive {n : ℕ} (hs : p.pairStep s (.receive n) = some s') :
    ∃ b r w, s.browser = some b ∧ p.pipeReceive s.wire n = some (r, w) ∧ s' =
      if r.last = .outOfRange then { s with wire := w, aborted := true }
      else if 1 < r.numBlocks then { s with wire := w, browser := some (b ++ r.file) }
      else { s with wire := w, served := s.served ++ [b], browser := none } := by
  obtain ⟨b, hb, hs⟩ := Option.bind_eq_some_iff.1 hs
  split at hs
  · cases hs
  · obtain ⟨⟨r, w⟩, hr, hs⟩ := Option.map_eq_some_iff.1 hs
    exact ⟨b, r, w, hb, hr, hs.symm⟩

theorem Owes.of_tail {d : List UInt8} {tail : List Item} (h : Owes s d tail) (ht : tail ≠ []) :
    s.answered = s.served ++ [d] ∧ s.upstream = none ∧ tail = [.eof] := by
  rcases h with ⟨-, -, rfl⟩ | ⟨h1, h2, rfl | rfl⟩
  · exact absurd rfl ht
  · exact absurd rfl ht
  · exact ⟨h1, h2, rfl⟩

theorem not_one_lt {n : UInt32} (h : n.toNat = 1) : ¬ 1 < n := by
  rw [UInt32.lt_iff_toNat_lt, h]
  exact Nat.lt_irrefl 1

/-- What `hrd` does with the count. -/
theorem pairStep_count {n : ℕ} (hs : p.pairStep s (.receive n) = some s') :
    ∃ b r w, s.browser = some b ∧ p.pipeReceive s.wire n = some (r, w) ∧
      (r.last ≠ .outOfRange → 1 < r.numBlocks.toNat → s' = { s with wire := w, browser := some (b ++ r.file) }) ∧
      (r.last ≠ .outOfRange → r.numBlocks.toNat = 1 →
        s' = { s with wire := w, served := s.served ++ [b], browser := none }) := by
  obtain ⟨b, r, w, hb, hr, rfl⟩ := pairStep_receive hs
  refine ⟨b, r, w, hb, hr, fun hlast hmore => ?_, fun hlast hone => ?_⟩
  · have hlt : 1 < r.numBlocks := UInt32.lt_iff_toNat_lt.2 hmore
    rw [if_neg hlast, if_pos hlt]
  · rw [if_neg hlast, if_neg (not_one_lt hone)]

theorem InStep.of_browser (h : InStep s) {b : List UInt8} (hb : s.browser = some b) :
    ∃ (fs : List (List (List UInt8))) (tail : List Item), (∀ bs ∈ fs, bs ≠ [] ∧ bs.length ≤ 1000) ∧
      s.wire.pending = fileParts fs ++ tail ∧ Owes s (b ++ fs.flatten.flatten) tail := by
  unfold InStep at h
  rwa [hb] at h

/-- The call comes to the end of a piece, or to the mark behind the response. -/
theorem InStep.receive_whole (h : InStep s) (hw : p.Steady s.wire) {n : ℕ} (hg : p.WholeFile s.wire n)
    (hs : p.pairStep s (.receive n) = some s') : p.Steady s'.wire ∧ InStep s' := by
  obtain ⟨bs, more, hp, hn⟩ := hg
  obtain ⟨b, r, w, hb, hr, hgo, hend⟩ := pairStep_count hs
  obtain ⟨fs, tail, hfs, hpend, howes⟩ := h.of_browser hb
  cases fs with
  | nil =>
    have htail : tail = bs.map .block ++ .eof :: more := hpend.symm.trans hp
    obtain ⟨h1, h2, rfl⟩ := howes.of_tail (by rw [htail]; simp)
    have heq : bs.map Item.block ++ .eof :: more = ([] : List (List UInt8)).map Item.block ++ .eof :: [] :=
      htail.symm
    rcases blocks_eof_inj heq with ⟨rfl, rfl⟩
    obtain ⟨hlast, -, hcount, hw', hpend'⟩ := hw.receive_whole hp (Nat.two_pow_pos 31) hn hr
    obtain rfl := hend (by rw [hlast]; exact Got.noConfusion) hcount
    rw [List.flatten_nil, List.flatten_nil, List.append_nil] at h1
    exact ⟨hw', h1, h2, hpend'⟩
  | cons bs' fs =>
    have heq : bs.map Item.block ++ .eof :: more = bs'.map Item.block ++ .eof :: (fileParts fs ++ tail) := by
      rw [← hp, hpend, fileParts_cons, List.append_assoc]
      rfl
    rcases blocks_eof_inj heq with ⟨rfl, rfl⟩
    obtain ⟨hne, hle⟩ := hfs bs (List.mem_cons_self ..)
    obtain ⟨hlast, hfile, hcount, hw', hpend'⟩ := hw.receive_whole hp (Nat.lt_of_le_of_lt hle (by decide)) hn hr
    have hpos := List.length_pos_iff.2 hne
    obtain rfl := hgo (by rw [hlast]; exact Got.noConfusion) (by omega)
    refine ⟨hw', fs, tail, fun x hx => hfs x (List.mem_cons_of_mem _ hx), hpend', ?_⟩
    rw [hfile, List.append_assoc]
    rw [List.flatten_cons, List.flatten_append] at howes
    exact howes

/-- What is left of the piece is received like a piece. -/
theorem InStep.receive_between (h : InStep s) (hw : p.Steady s.wire) {n : ℕ} (hg : p.BetweenBlocks s.wire n)
    (hs : p.pairStep s (.receive n) = some s') : p.Steady s'.wire ∧ InStep s' := by
  obtain ⟨bs, x, more, hp, hne, hn⟩ := hg
  obtain ⟨b, r, w, hb, hr, hgo, -⟩ := pairStep_count hs
  obtain ⟨fs, tail, hfs, hpend, howes⟩ := h.of_browser hb
  cases fs with
  | nil =>
    have htail : tail = bs.map .block ++ .block x :: more := hpend.symm.trans hp
    obtain ⟨-, -, rfl⟩ := howes.of_tail (by rw [htail]; simp)
    have heq : bs.map Item.block ++ .block x :: more = ([] : List (List UInt8)).map Item.block ++ .eof :: [] :=
      htail.symm
    obtain ⟨rest, hrest, -⟩ := blocks_inside heq
    exact absurd hrest.symm (by simp)
  | cons bs' fs =>
    have heq : bs.map Item.block ++ .block x :: more = bs'.map Item.block ++ .eof :: (fileParts fs ++ tail) := by
      rw [← hp, hpend, fileParts_cons, List.append_assoc]
      rfl
    obtain ⟨rest, rfl, rfl⟩ := blocks_inside heq
    have hle := (hfs _ (List.mem_cons_self ..)).2
    rw [List.length_append, List.length_cons] at hle
    obtain ⟨hlast, hfile, hcount, hw', hpend'⟩ := hw.receive_stop hp (by omega) hn hr
    have hpos := List.length_pos_iff.2 hne
    obtain rfl := hgo (by rw [hlast]; exact Got.noConfusion) (by omega)
    refine ⟨hw', (x :: rest) :: fs, tail, ?_, ?_, ?_⟩
    · intro y hy
      rcases List.mem_cons.1 hy with rfl | hy
      · exact ⟨List.cons_ne_nil _ _, by rw [List.length_cons]; omega⟩
      · exact hfs y (List.mem_cons_of_mem _ hy)
    · show w.pending = _
      rw [hpend', fileParts_cons, List.append_assoc]
      rfl
    · rw [hfile, List.append_assoc]
      rw [List.flatten_cons, List.append_assoc, List.flatten_append, List.flatten_append] at howes
      rw [List.flatten_cons, List.flatten_append]
      exact howes

/-- `psb` could not pass the request on. -/
theorem InStep.receive_quiet (h : InStep s) (hj : Joined s) (hw : p.Steady s.wire) (hquiet : Quiet s)
    (hs : p.pairStep s (.receive 0) = some s') : p.Steady s'.wire ∧ InStep s' := by
  obtain ⟨b, r, w, hb, hr, -, hend⟩ := pairStep_count hs
  obtain ⟨fs, tail, -, hpend, howes⟩ := h.of_browser hb
  have hp : s.wire.pending = ([] : List (List UInt8)).map .block ++ [] := hquiet.pending
  obtain ⟨hlast, -, hcount, hw', hpend'⟩ := hw.receive_stop hp (Nat.two_pow_pos 31) rfl hr
  obtain rfl := hend (by rw [hlast]; exact Got.noConfusion) hcount
  obtain rfl : fs = [] := by
    cases fs with
    | nil => rfl
    | cons bs fs =>
      rw [hquiet.pending, fileParts_cons] at hpend
      simp at hpend
  rcases howes with ⟨h1, -, -⟩ | ⟨h1, h2, -⟩
  · have hlen := hquiet.answered
    rw [hj.length_conns, Pairing.browsers, hb, h1, Option.toList_some, List.length_append] at hlen
    exact absurd hlen (by simp)
  · rw [List.flatten_nil, List.flatten_nil, List.append_nil] at h1
    exact ⟨hw', h1, h2, hpend'⟩

/-- While `psb` is at a response, `hrd` is at the same one. -/
theorem InStep.responding (h : InStep s) {u : List UInt8} (hu : s.upstream = some u) :
    ∃ b fs, s.browser = some b ∧ (∀ bs ∈ fs, bs ≠ [] ∧ bs.length ≤ 1000) ∧ s.wire.pending = fileParts fs ∧
      s.answered = s.served ∧ u = b ++ fs.flatten.flatten := by
  unfold InStep at h
  cases hb : s.browser with
  | none =>
    rw [hb] at h
    rw [h.2.1] at hu
    cases hu
  | some b =>
    rw [hb] at h
    rcases h with ⟨fs, tail, hfs, hpend, ⟨h1, h2, rfl⟩ | ⟨-, h2, -⟩⟩
    · rw [hu] at h2
      exact ⟨b, fs, rfl, hfs, hpend.trans (List.append_nil _), h1, h2⟩
    · rw [hu] at h2
      cases h2

/-- `psb` accepts a connection: its response is still empty, and may stay so. -/
theorem InStep.accept (h : InStep s) (hu : s.upstream = none) (hlen : s.answered.length < s.browsers.length) :
    InStep { s with upstream := some [] } ∧ InStep { s with answered := s.answered ++ [[]] } := by
  unfold InStep at h ⊢
  cases hb : s.browser with
  | none =>
    rw [hb] at h
    rw [Pairing.browsers, hb, h.1] at hlen
    simp at hlen
  | some b =>
    rw [hb] at h
    rcases h with ⟨fs, tail, hfs, hpend, ⟨h1, h2, h3⟩ | ⟨h1, -, -⟩⟩
    · rw [hu] at h2
      refine ⟨⟨fs, tail, hfs, hpend, .inl ⟨h1, h2, h3⟩⟩, fs, tail, hfs, hpend, .inr ⟨?_, hu, .inl h3⟩⟩
      show s.answered ++ [[]] = _
      rw [h1, ← h2]
      rfl
    · rw [Pairing.browsers, hb, h1] at hlen
      simp at hlen

theorem InStep.recv (h : InStep s) (hw : p.Steady s.wire) {u q : List UInt8} (hu : s.upstream = some u)
    (hq : Piece q) {w : Pipe} (hsend : p.pipeSend s.wire q = some w) :
    p.Steady w ∧ InStep { s with wire := w, upstream := some (u ++ q) } := by
  obtain ⟨hw', hpend', -⟩ := hw.send hsend
  obtain ⟨b, fs, hb, hfs, hpend, h1, h2⟩ := h.responding hu
  refine ⟨hw', ?_⟩
  unfold InStep
  rw [hb]
  refine ⟨fs ++ [p.chunks q], [], ?_, ?_, .inl ⟨h1, ?_, rfl⟩⟩
  · intro bs hbs
    rcases List.mem_append.1 hbs with hbs | hbs
    · exact hfs bs hbs
    · rw [List.mem_singleton.1 hbs]
      exact chunks_of_piece hq
  · show w.pending = _
    rw [hpend', hpend, fileParts_concat, List.append_nil]
    rfl
  · show u ++ q = _
    rw [List.flatten_append, List.flatten_append, ← List.append_assoc, h2, List.flatten_singleton, flatten_chunks]

theorem InStep.finish (h : InStep s) (hw : p.Steady s.wire) {u : List UInt8} (hu : s.upstream = some u) {w : Pipe}
    (hsend : p.pipeSend s.wire [] = some w) :
    p.Steady w ∧ InStep { s with wire := w, answered := s.answered ++ [u], upstream := none } := by
  obtain ⟨hw', hpend', -⟩ := hw.send hsend
  obtain ⟨b, fs, hb, hfs, hpend, h1, h2⟩ := h.responding hu
  refine ⟨hw', ?_⟩
  unfold InStep
  rw [hb]
  refine ⟨fs, [.eof], hfs, ?_, .inr ⟨?_, rfl, .inr rfl⟩⟩
  · show w.pending = _
    rw [hpend', hpend]
    rfl
  · show s.answered ++ [u] = _
    rw [h1, h2]

theorem pairStep_browser {c : Conn UInt8} {n : ℤ} (hn : 0 < n) (hs : p.pairStep s (.browser c true n) = some s') :
    s.browser = none ∧ ∃ request, request ≠ [] ∧
      s' = { s with conns := s.conns ++ [(s.served.length, request)], browser := some [] } := by
  rw [pairStep, Option.ite_none_right_eq_some] at hs
  obtain ⟨hb, hs⟩ := hs
  obtain ⟨request, -, hs⟩ := Option.bind_eq_some_iff.1 hs
  rw [Bool.not_true, if_neg Bool.false_ne_true, if_neg (Int.not_le.2 hn), Option.ite_none_right_eq_some] at hs
  obtain ⟨hle, hs⟩ := hs
  cases hs
  refine ⟨hb, _, List.length_pos_iff.1 ?_, rfl⟩
  rw [List.length_take]
  omega

theorem pairStep_accept {connected : Bool} {n : ℤ} (hs : p.pairStep s (.accept connected n) = some s') :
    s.upstream = none ∧ ∃ c, s.conns[s.answered.length]? = some c ∧
      (c.2 = [] ∧ s' = { s with stuck := true } ∨ s' = { s with answered := s.answered ++ [[]] } ∨
        s' = { s with upstream := some [] }) := by
  rw [pairStep, Option.ite_none_right_eq_some] at hs
  obtain ⟨hu, hs⟩ := hs
  obtain ⟨c, hget, hs⟩ := Option.map_eq_some_iff.1 hs
  refine ⟨hu.1, c, hget, ?_⟩
  dsimp only at hs
  split at hs
  · rename_i hnil
    exact .inl ⟨hnil, hs.symm⟩
  · split at hs
    · exact .inr (.inl hs.symm)
    · exact .inr (.inr hs.symm)

theorem pairStep_noFile (hs : p.pairStep s .noFile = some s') : s' = { s with aborted := true } := by
  rw [pairStep, Option.ite_none_right_eq_some] at hs
  exact (Option.some.inj hs.2).symm

theorem pairStep_recv {q : List UInt8} (hs : p.pairStep s (.recv q) = some s') :
    ∃ u w, s.upstream = some u ∧ Piece q ∧ p.pipeSend s.wire q = some w ∧
      s' = { s with wire := w, upstream := some (u ++ q) } := by
  obtain ⟨u, hu, hs⟩ := Option.bind_eq_some_iff.1 hs
  rw [Option.ite_none_right_eq_some] at hs
  obtain ⟨hq, hs⟩ := hs
  obtain ⟨w, hsend, hs⟩ := Option.map_eq_some_iff.1 hs
  exact ⟨u, w, hu, hq, hsend, hs.symm⟩

theorem pairStep_finish (hs : p.pairStep s .finish = some s') :
    ∃ u w, s.upstream = some u ∧ p.pipeSend s.wire [] = some w ∧
      s' = { s with wire := w, answered := s.answered ++ [u], upstream := none } := by
  obtain ⟨u, hu, hs⟩ := Option.bind_eq_some_iff.1 hs
  obtain ⟨w, hsend, hs⟩ := Option.map_eq_some_iff.1 hs
  exact ⟨u, w, hu, hsend, hs.symm⟩

theorem Joined.step (h : Joined s) {a : PairAct} (hg : p.InTime s a) (hs : p.pairStep s a = some s') :
    Joined s' := by
  cases a with
  | browser c connected n =>
    obtain ⟨rfl, hn⟩ := hg
    obtain ⟨hb, request, hne, rfl⟩ := pairStep_browser hn hs
    have hfst := h.fst_eq
    rw [Pairing.browsers, hb, Option.toList_none, List.append_nil] at hfst
    refine ⟨?_, fun c hc => ?_⟩
    · rw [Pairing.browsers, List.map_append, hfst, Option.toList_some, List.length_append, List.length_singleton,
        List.range_succ]
      rfl
    · rcases List.mem_append.1 hc with hc | hc
      · exact h.request_ne c hc
      · rwa [List.mem_singleton.1 hc]
  | accept connected n =>
    obtain ⟨-, c, -, ⟨-, rfl⟩ | rfl | rfl⟩ := pairStep_accept hs
    · exact h.congr rfl rfl
    · exact h.congr rfl rfl
    · exact h.congr rfl rfl
  | recv q =>
    obtain ⟨u, w, -, -, -, rfl⟩ := pairStep_recv hs
    exact h.congr rfl rfl
  | finish =>
    obtain ⟨u, w, -, -, rfl⟩ := pairStep_finish hs
    exact h.congr rfl rfl
  | receive n =>
    obtain ⟨b, r, w, hb, -, rfl⟩ := pairStep_receive hs
    split
    · exact h.congr rfl rfl
    · split
      · exact h.congr rfl (by simp [Pairing.browsers, hb])
      · exact h.congr rfl (by simp [Pairing.browsers, hb])
  | noFile =>
    rw [pairStep_noFile hs]
    exact h.congr rfl rfl

theorem InStep.step (h : InStep s) (hj : Joined s) (hw : p.Steady s.wire) {a : PairAct} (hg : p.InTime s a)
    (hs : p.pairStep s a = some s') : p.Steady s'.wire ∧ InStep s' := by
  cases a with
  | receive n =>
    rcases hg with hg | hg | ⟨hquiet, rfl⟩
    · exact h.receive_whole hw hg hs
    · exact h.receive_between hw hg hs
    · exact h.receive_quiet hj hw hquiet hs
  | browser c connected n =>
    obtain ⟨rfl, hn⟩ := hg
    obtain ⟨hb, request, -, rfl⟩ := pairStep_browser hn hs
    unfold InStep at h
    rw [hb] at h
    rcases h with ⟨h1, h2, h3⟩
    refine ⟨hw, [], [], (fun _ hbs => nomatch hbs), h3, .inl ⟨h1, ?_, rfl⟩⟩
    show s.upstream.getD [] = _
    rw [h2]
    rfl
  | accept connected n =>
    obtain ⟨hu, c, hget, hs⟩ := pairStep_accept hs
    have hlt := (List.getElem?_eq_some_iff.1 hget).1
    obtain ⟨h1, h2⟩ := h.accept hu (hj.length_conns ▸ hlt)
    rcases hs with ⟨hnil, -⟩ | rfl | rfl
    · exact absurd hnil (hj.request_ne c (List.mem_of_getElem? hget))
    · exact ⟨hw, h2⟩
    · exact ⟨hw, h1⟩
  | recv q =>
    obtain ⟨u, w, hu, hq, hsend, rfl⟩ := pairStep_recv hs
    exact h.recv hw hu hq hsend
  | finish =>
    obtain ⟨u, w, hu, hsend, rfl⟩ := pairStep_finish hs
    exact h.finish hw hu hsend
  | noFile =>
    rw [pairStep_noFile hs]
    exact ⟨hw, h⟩

theorem joined_inStep {as : List PairAct} (hg : Lts.Guarded p.pairStep p.InTime .init as)
    (hr : Lts.run p.pairStep .init as = some s) : Joined s ∧ InStep s := by
  have h : Joined s ∧ p.Steady s.wire ∧ InStep s := by
    refine Lts.invariant_of_guarded (I := fun s => Joined s ∧ p.Steady s.wire ∧ InStep s) ?_ hg ?_ hr
    · intro s a s' h hok hs
      exact ⟨h.1.step hok hs, h.2.2.step h.1 h.2.1 hok hs⟩
    · exact ⟨⟨rfl, fun _ hc => nomatch hc⟩, steady_init, rfl, rfl, rfl⟩
  exact ⟨h.1, h.2.2⟩

variable (p) in
/-- In a run in which `hrd` passes every request on, and every timeout falls between two blocks of one piece, behind a
block of the same call, or where no response is to come, every browser is sent a prefix of the response to its own
request. -/
theorem paired_of_timeouts (as : List PairAct) (hg : Lts.Guarded p.pairStep p.InTime .init as)
    (hr : Lts.run p.pairStep .init as = some s) : s.Paired :=
  paired_of_inStep (joined_inStep hg hr).2 (joined_inStep hg hr).1

/-- `psb` cannot connect for the first browser; for the second, there is a timeout between the two blocks of a piece. -/
def slowRun : List PairAct :=
  [.browser [.piece [71]] true 1, .accept false 0, .receive 0, .browser [.piece [72, 73]] true 2, .accept true 2,
    .recv [97, 97, 97], .receive 15, .receive 27]

theorem paired_of_timeouts_small :
    ∃ s, Lts.run small.pairStep .init slowRun = some s ∧ s.browsers = [[], [97, 97, 97]] ∧ s.Paired := by
  have hg : Lts.Guarded small.pairStep small.InTime .init slowRun := by
    refine Lts.guarded_cons ⟨rfl, Int.one_pos⟩ rfl (Lts.guarded_cons trivial rfl ?_)
    refine Lts.guarded_cons (.inr (.inr ⟨⟨rfl, rfl, rfl⟩, rfl⟩)) rfl (Lts.guarded_cons ⟨rfl, by decide⟩ rfl ?_)
    refine Lts.guarded_cons trivial rfl (Lts.guarded_cons trivial rfl ?_)
    refine Lts.guarded_cons (.inr (.inl ⟨[[97, 97]], [97], [.eof], ?_, ?_, ?_⟩)) rfl ?_
    · decide
    · decide
    · decide
    · refine Lts.guarded_cons (.inl ⟨[[97]], [], ?_, ?_⟩) rfl trivial
      · decide
      · decide
  exact ⟨_, rfl, by decide, small.paired_of_timeouts _ hg rfl⟩

/-- `hrd` waits too long for the first byte of the first response; the second browser is sent it. -/
def lateRun : List PairAct :=
  [.browser [.piece [71]] true 1, .accept true 1, .receive 0, .browser [.piece [72]] true 1, .recv [97], .receive 27]

theorem late_response :
    ∃ s, Lts.run small.pairStep .init lateRun = some s ∧ s.browsers = [[], [97]] ∧ s.responses = [[97]] ∧
      ¬ s.Paired := by
  refine ⟨_, rfl, by decide, by decide, ?_⟩
  intro h
  have hp := h 1 [97] (by decide)
  revert hp
  decide

end Params
end Rabin
