import Rabin.Joint

/-!
# Asking before waiting

`handle_upstream_connect` of `tcpproxy_client` starts two chains of handlers: the one that reads from the
browser and writes to the upstream socket, and the one of zero-byte reads and writes that calls
`receive_file`. Nothing ties the second to the first. A bridge that enters `receive_file` has passed on a
chunk exactly if its browser had sent one by then and the socket had time to take all of it (`asked_iff`).
-/

namespace Rabin
open Proactor

/-- What the outside world does for the requests of a bridge. -/
inductive Progress
  /-- the browser has sent a chunk -/
  | chunk (q : List UInt8)
  /-- the upstream socket takes `n` bytes -/
  | taken (n : ℕ)

namespace Progress

def chunks (ps : List Progress) : List (List UInt8) :=
  ps.filterMap fun
    | .chunk q => some q
    | .taken _ => none

def size : Progress → ℕ
  | .chunk _ => 0
  | .taken n => n

def total (ps : List Progress) : ℕ := (ps.map size).sum

variable {ps ps' : List Progress}

@[simp] theorem chunks_append : chunks (ps ++ ps') = chunks ps ++ chunks ps' := List.filterMap_append ..

@[simp] theorem total_append : total (ps ++ ps') = total ps + total ps' := by simp [total]

@[simp] theorem chunks_chunk (q : List UInt8) : chunks [.chunk q] = [q] := rfl

@[simp] theorem chunks_taken (n : ℕ) : chunks [.taken n] = [] := rfl

@[simp] theorem total_chunk (q : List UInt8) : total [.chunk q] = 0 := rfl

@[simp] theorem total_taken (n : ℕ) : total [.taken n] = n := rfl

theorem mem_chunks {q : List UInt8} : q ∈ chunks ps ↔ .chunk q ∈ ps := by
  rw [chunks, List.mem_filterMap]
  constructor
  · rintro ⟨x, hx, hq⟩
    cases x with
    | chunk q' =>
      cases hq
      exact hx
    | taken n => cases hq
  · intro h
    exact ⟨_, h, rfl⟩

end Progress

def Op.progress : Op → Completion → List Progress
  | .readDown _, .read q => [.chunk q]
  | .writeUp _ _ _, .wrote k => [.taken k]
  | _, _ => []

/-- For bridge `k` of `tcpproxy_client`. -/
def Tunnel.progress (k : ℕ) (s : Tunnel) : TunnelAct → List Progress
  | .client k' i e => if k' = k then ((s.clients k).pending[i]?.map (·.progress e)).getD [] else []
  | _ => []

def Joint.progress (k : ℕ) (s : Joint) : JointAct → List Progress
  | .other a => s.tunnel.progress k a
  | _ => []

/-- What has become of the requests of a bridge after `ps`. -/
structure ClientEnds.Asked (ps : List Progress) (s : Loop ClientEnds Op) : Prop where
  taken : s.obj.taken = (Progress.chunks ps).flatten
  length_forwarded : s.obj.forwarded.length = Progress.total ps
  /-- the first chunk, and whether it can have gone out -/
  first : Progress.chunks ps ≠ [] → ∃ ps₁ q ps₂, ps = ps₁ ++ .chunk q :: ps₂ ∧ Progress.chunks ps₁ = [] ∧
    Progress.total ps₁ = 0 ∧ (Progress.chunks ps₂ ≠ [] → q.length ≤ Progress.total ps₂)
  chunk_ne : ∀ q ∈ Progress.chunks ps, q ≠ []
  write_le : ∀ ok len sent, .writeUp ok len sent ∈ s.pending → len ≤ 8192

namespace ClientEnds
variable {ps : List Progress} {s s' : Loop ClientEnds Op}

theorem asked_new (down up : DataBuffer) : Asked [] ⟨new down up, [.connect]⟩ := by
  refine ⟨rfl, rfl, fun h => absurd rfl h, fun q hq => absurd hq List.not_mem_nil, fun ok len sent h => ?_⟩
  cases List.mem_singleton.1 h

/-- A handler of the responses, or one that reads and writes nothing. -/
theorem Asked.idle (h : Asked ps s) (h1 : s'.obj.taken = s.obj.taken) (h2 : s'.obj.forwarded = s.obj.forwarded)
    (h3 : ∀ ok len sent, .writeUp ok len sent ∈ s'.pending → .writeUp ok len sent ∈ s.pending) : Asked ps s' :=
  ⟨h1.trans h.taken, (congrArg List.length h2).trans h.length_forwarded, h.first, h.chunk_ne,
    fun ok len sent hw => h.write_le ok len sent (h3 ok len sent hw)⟩

/-- The first chunk has gone out before the next one is read. -/
theorem Asked.read (h : Asked ps s) (hI : s.obj.forwarded = s.obj.taken) {q : List UInt8} (hq : q ≠ [])
    (h1 : s'.obj.taken = s.obj.taken ++ q) (h2 : s'.obj.forwarded = s.obj.forwarded)
    (h3 : ∀ ok len sent, .writeUp ok len sent ∈ s'.pending → len ≤ 8192) : Asked (ps ++ [.chunk q]) s' := by
  have hlen := h.length_forwarded
  rw [hI, h.taken] at hlen
  refine ⟨?_, ?_, fun _ => ?_, fun q' hq' => ?_, h3⟩
  · rw [h1, h.taken, Progress.chunks_append, List.flatten_append, Progress.chunks_chunk, List.flatten_singleton]
  · rw [h2, h.length_forwarded, Progress.total_append, Progress.total_chunk, Nat.add_zero]
  · by_cases hnil : Progress.chunks ps = []
    · rw [hnil] at hlen
      exact ⟨ps, q, [], rfl, hnil, hlen.symm, fun hne => absurd rfl hne⟩
    · obtain ⟨ps₁, q', ps₂, rfl, hps₁, hzero, -⟩ := h.first hnil
      refine ⟨ps₁, q', ps₂ ++ [.chunk q], by simp, hps₁, hzero, fun _ => ?_⟩
      have hcons : Progress.chunks (ps₁ ++ .chunk q' :: ps₂) = q' :: Progress.chunks ps₂ := by
        rw [Progress.chunks_append, hps₁]
        rfl
      have htotal : Progress.total (ps₁ ++ .chunk q' :: ps₂) = Progress.total ps₂ := by
        rw [Progress.total_append, hzero, Nat.zero_add]
        simp [Progress.total, Progress.size]
      rw [hcons, htotal, List.flatten_cons, List.length_append] at hlen
      rw [Progress.total_append, Progress.total_chunk]
      omega
  · rw [Progress.chunks_append, Progress.chunks_chunk] at hq'
    rcases List.mem_append.1 hq' with hq' | hq'
    · exact h.chunk_ne q' hq'
    · rwa [List.mem_singleton.1 hq']

theorem Asked.wrote (h : Asked ps s) {k : ℕ} {piece : List UInt8} (hk : piece.length = k)
    (h1 : s'.obj.taken = s.obj.taken) (h2 : s'.obj.forwarded = s.obj.forwarded ++ piece)
    (h3 : ∀ ok len sent, .writeUp ok len sent ∈ s'.pending → len ≤ 8192) : Asked (ps ++ [.taken k]) s' := by
  have hchunks : Progress.chunks (ps ++ [.taken k]) = Progress.chunks ps := by
    rw [Progress.chunks_append, Progress.chunks_taken, List.append_nil]
  refine ⟨by rw [hchunks, h1, h.taken], ?_, fun hne => ?_, by rw [hchunks]; exact h.chunk_ne, h3⟩
  · rw [h2, List.length_append, h.length_forwarded, hk, Progress.total_append, Progress.total_taken]
  · rw [hchunks] at hne
    obtain ⟨ps₁, q, ps₂, rfl, hps₁, hzero, hle⟩ := h.first hne
    refine ⟨ps₁, q, ps₂ ++ [.taken k], by simp, hps₁, hzero, fun hne' => ?_⟩
    rw [Progress.chunks_append, Progress.chunks_taken, List.append_nil] at hne'
    rw [Progress.total_append]
    exact Nat.le_add_right_of_le (hle hne')

theorem Asked.step (h : Asked ps s) (hsound : Sound s) {i : ℕ} {e : Completion}
    (hs : Proactor.step handle s (i, e) = some s') :
    Asked (ps ++ (s.pending[i]?.map (·.progress e)).getD []) s' := by
  obtain ⟨us, o, vs, b', os, hget, hpend, hh, rfl⟩ := step_cases hs
  have ho : o ∈ s.pending := List.mem_of_getElem? hget
  rw [hget, Option.map_some, Option.getD_some]
  -- the other operations are still there
  have hother {o' : Op} (ho' : o' ∈ us ++ vs) : o' ∈ s.pending := by
    rw [hpend]
    rcases List.mem_append.1 ho' with ho' | ho' <;> simp [ho']
  have hquiet (hprog : o.progress e = []) (h1 : b'.taken = s.obj.taken) (h2 : b'.forwarded = s.obj.forwarded)
      (hos : ∀ ok len sent, .writeUp ok len sent ∉ os) : Asked (ps ++ o.progress e) ⟨b', us ++ vs ++ os⟩ := by
    rw [hprog, List.append_nil]
    refine h.idle h1 h2 fun ok len sent hw => ?_
    rcases List.mem_append.1 hw with hw | hw
    · exact hother hw
    · exact absurd hw (hos ok len sent)
  have hwrites {len : ℕ} (hle : len ≤ 8192) (hos : ∃ ok sent, os = [.writeUp ok len sent]) :
      ∀ ok' len' sent', .writeUp ok' len' sent' ∈ us ++ vs ++ os → len' ≤ 8192 := by
    obtain ⟨ok, sent, rfl⟩ := hos
    intro ok' len' sent' hw
    rcases List.mem_append.1 hw with hw | hw
    · exact h.write_le ok' len' sent' (hother hw)
    · cases List.mem_singleton.1 hw
      exact hle
  rcases handle_cases hh with ⟨t, ht, rfl⟩ | ⟨hres, -, rfl, rfl, rfl⟩ | ⟨rfl, rfl, rfl, rfl⟩ | ⟨rfl, rfl, hr⟩ |
    ⟨len, sent, k, rfl, rfl, -, rfl, rfl⟩ | ⟨len, n, file, rfl, rfl, hw⟩
  · rcases Ends.handleRequest_cases ht with ⟨-, -, rfl, rfl, rfl⟩ | ⟨q, hq, rfl, rfl, rfl, rfl⟩ |
      ⟨len, sent, k, rfl, rfl, hk, rfl, rfl⟩ | ⟨len, rfl, rfl, rfl, rfl⟩
    · exact hquiet (by cases o <;> rfl) rfl rfl fun _ _ _ => List.not_mem_nil
    · have hI : s.obj.forwarded = s.obj.taken := (hsound.holds _ ho).1
      exact h.read hI (List.length_pos_iff.1 hq.1) rfl rfl (hwrites hq.2 ⟨_, _, rfl⟩)
    · have hle := h.write_le _ _ _ ho
      refine h.wrote ?_ rfl rfl (hwrites hle ⟨_, _, rfl⟩)
      rw [List.length_take, List.length_drop, s.obj.downstreamData.length_eq]
      omega
    · exact hquiet rfl rfl rfl (by simp)
  · exact hquiet (by cases o <;> rfl) rfl rfl fun _ _ _ => List.not_mem_nil
  · exact hquiet rfl rfl rfl (by simp)
  · rcases handleUpstreamRead_cases hr with ⟨-, rfl, rfl⟩ | ⟨_, _, -, rfl, rfl⟩
    · exact hquiet rfl rfl rfl (by simp)
    · exact hquiet rfl rfl rfl (by simp)
  · exact hquiet rfl rfl rfl (by simp)
  · cases hw
    exact hquiet rfl rfl rfl (by simp)

/-- A chunk has gone out whole if and only if the socket has had enough time since the browser sent one. -/
theorem Asked.passed_on_iff (h : Asked ps s) (hsound : Sound s) :
    (∃ q, .chunk q ∈ ps ∧ q ≠ [] ∧ q <+: s.obj.forwarded) ↔
      ∃ ps₁ q ps₂, ps = ps₁ ++ .chunk q :: ps₂ ∧ q.length ≤ Progress.total ps₂ := by
  have hmem {q : List UInt8} (hq : .chunk q ∈ ps) : Progress.chunks ps ≠ [] :=
    List.ne_nil_of_mem (Progress.mem_chunks.2 hq)
  have hsplit {ps₁ ps₂ : List Progress} {q : List UInt8} (hps : ps = ps₁ ++ .chunk q :: ps₂)
      (hps₁ : Progress.chunks ps₁ = []) (hzero : Progress.total ps₁ = 0) :
      Progress.chunks ps = q :: Progress.chunks ps₂ ∧ Progress.total ps = Progress.total ps₂ := by
    rw [hps, Progress.chunks_append, Progress.total_append, hps₁, hzero, Nat.zero_add]
    exact ⟨rfl, by simp [Progress.total, Progress.size]⟩
  constructor
  · rintro ⟨q, hq, -, hpre⟩
    obtain ⟨ps₁, q₀, ps₂, hps, hps₁, hzero, hle⟩ := h.first (hmem hq)
    obtain ⟨hcons, htotal⟩ := hsplit hps hps₁ hzero
    refine ⟨ps₁, q₀, ps₂, hps, ?_⟩
    by_cases hnil : Progress.chunks ps₂ = []
    · rw [← Progress.mem_chunks, hcons, hnil, List.mem_singleton] at hq
      rw [← hq, ← htotal, ← h.length_forwarded]
      exact hpre.length_le
    · exact hle hnil
  · rintro ⟨ps₁, q, ps₂, hps, hle⟩
    have hq : .chunk q ∈ ps := by simp [hps]
    obtain ⟨qs₁, q₀, qs₂, hps', hqs₁, hzero, hle₀⟩ := h.first (hmem hq)
    obtain ⟨hcons, htotal⟩ := hsplit hps' hqs₁ hzero
    have hq₀ : .chunk q₀ ∈ ps := by simp [hps']
    refine ⟨q₀, hq₀, h.chunk_ne q₀ (Progress.mem_chunks.2 hq₀), ?_⟩
    have hpre : q₀ <+: s.obj.taken := by
      rw [h.taken, hcons, List.flatten_cons]
      exact List.prefix_append ..
    refine List.prefix_of_prefix_length_le hpre hsound.relayed.1 ?_
    rw [h.length_forwarded, htotal]
    by_cases hnil : Progress.chunks qs₂ = []
    · -- the chunk is the only one
      rw [← Progress.mem_chunks, hcons, hnil, List.mem_singleton] at hq
      rw [← htotal, hps, Progress.total_append, ← hq]
      have hcons₂ : Progress.total (.chunk q :: ps₂) = Progress.total ps₂ := by simp [Progress.total, Progress.size]
      omega
    · exact hle₀ hnil

end ClientEnds

namespace Tunnel
variable {s s' : Tunnel} {ps : List Progress} {k : ℕ}

/-- What holds of bridge `k` of `tcpproxy_client`; before it is there, nothing has happened to it. -/
structure Asks (k : ℕ) (ps : List Progress) (s : Tunnel) : Prop where
  order : s.InOrder
  asked : ClientEnds.Asked ps (s.clients k)
  fresh : s.browsers ≤ k → ps = [] ∧ (s.clients k).pending = []

theorem asks_init : Asks k [] init := by
  refine ⟨inOrder_init, ⟨rfl, rfl, fun h => absurd rfl h, ?_, ?_⟩, fun _ => ⟨rfl, rfl⟩⟩
  · intro q hq
    exact absurd hq List.not_mem_nil
  · intro ok len sent hw
    exact absurd hw List.not_mem_nil

theorem Asks.same (h : Asks k ps s) (ho : s'.InOrder) (hk : s'.clients k = s.clients k)
    (hle : s.browsers ≤ s'.browsers) : Asks k (ps ++ []) s' := by
  rw [List.append_nil]
  refine ⟨ho, by rw [hk]; exact h.asked, fun hlt => ?_⟩
  rw [hk]
  exact h.fresh (Nat.le_trans hle hlt)

theorem Asks.step (h : Asks k ps s) {a : TunnelAct} (hs : s.step a = some s') :
    Asks k (ps ++ s.progress k a) s' := by
  have ho := h.order.step hs
  cases a with
  | acceptBrowser down up =>
    cases hs
    rcases eq_or_ne k s.browsers with rfl | hne
    · obtain ⟨rfl, -⟩ := h.fresh (Nat.le_refl _)
      refine ⟨ho, ?_, fun hle => absurd hle (Nat.not_succ_le_self _)⟩
      dsimp only
      rw [Function.update_self]
      exact ClientEnds.asked_new down up
    · exact h.same ho (Function.update_of_ne hne _ _) (Nat.le_succ _)
  | connect k' =>
    rw [Tunnel.step, Option.ite_none_right_eq_some] at hs
    obtain ⟨-, hs⟩ := hs
    cases hs
    exact h.same ho rfl (Nat.le_refl _)
  | client k' i e =>
    rw [Tunnel.step, Option.ite_none_left_eq_some] at hs
    obtain ⟨l, hl, rfl⟩ := Option.map_eq_some_iff.1 hs.2
    rcases eq_or_ne k' k with rfl | hne
    · rw [progress, if_pos rfl]
      refine ⟨ho, ?_, fun hle => ?_⟩
      · dsimp only
        rw [Function.update_self]
        exact h.asked.step (h.order.clients k') hl
      · have hnone : (s.clients k').pending[i]? = none := by
          rw [(h.fresh hle).2]
          rfl
        simp [Proactor.step, hnone] at hl
    · rw [progress, if_neg hne]
      exact h.same ho (Function.update_of_ne hne.symm _ _) (Nat.le_refl _)
  | accept down up =>
    rw [Tunnel.step, Option.ite_none_right_eq_some] at hs
    obtain ⟨-, hs⟩ := hs
    cases hs
    exact h.same ho rfl (Nat.le_refl _)
  | server j i e =>
    rw [Tunnel.step, Option.ite_none_right_eq_some] at hs
    obtain ⟨b, -, rfl⟩ := Option.map_eq_some_iff.1 hs.2
    exact h.same ho rfl (Nat.le_refl _)

theorem progress_received {k' i : ℕ} {n : UInt32} {file : List UInt8} :
    s.progress k (.client k' i (.received n file)) = [] := by
  rw [progress]
  split
  · cases (s.clients k).pending[i]? with
    | none => rfl
    | some o => cases o <;> rfl
  · rfl

end Tunnel

namespace Joint
variable {p : Params} {s s' : Joint} {ps : List Progress} {k : ℕ} {acts : List JointAct}

theorem asks_step (h : s.tunnel.Asks k ps) {a : JointAct} (hs : s.step p a = some s') :
    s'.tunnel.Asks k (ps ++ s.progress k a) := by
  cases a with
  | other a =>
    rw [step, Option.ite_none_left_eq_some] at hs
    obtain ⟨u, hu, rfl⟩ := Option.map_eq_some_iff.1 hs.2
    exact h.step hu
  | receive k' i n =>
    obtain ⟨⟨r, w⟩, -, hs⟩ := Option.bind_eq_some_iff.1 hs
    rw [Option.ite_none_left_eq_some] at hs
    obtain ⟨u, hu, rfl⟩ := Option.map_eq_some_iff.1 hs.2
    have hasks := h.step hu
    rwa [Tunnel.progress_received] at hasks
  | send j i q =>
    rw [step, Option.ite_none_right_eq_some] at hs
    obtain ⟨w, -, hs⟩ := Option.bind_eq_some_iff.1 hs.2
    obtain ⟨u, hu, rfl⟩ := Option.map_eq_some_iff.1 hs
    exact h.step hu

/-- After `acts` the write to the browser of bridge `k` of `tcpproxy_client` is complete: `handle_downstream_write`
runs, with no error, and enters `receive_file`, whether or not it comes back. -/
structure Enters (p : Params) (acts : List JointAct) (k : ℕ) (s : Joint) : Prop where
  run : Lts.run (step p) init acts = some s
  written : ∃ len, .writeDown true len len ∈ (s.tunnel.clients k).pending

/-- A bridge that enters `receive_file` has written a chunk that it read from its browser to the upstream socket if and
only if there is a chunk since which the socket has taken as many bytes as it has. -/
theorem asked_iff (h : Enters p acts k s) :
    let ps := Lts.trace (step p) (progress k) init acts
    (∃ q, .chunk q ∈ ps ∧ q ≠ [] ∧ q <+: (s.tunnel.clients k).obj.forwarded) ↔
      ∃ ps₁ q ps₂, ps = ps₁ ++ .chunk q :: ps₂ ∧ q.length ≤ Progress.total ps₂ := by
  intro ps
  have hasks : s.tunnel.Asks k ps :=
    Lts.invariant_of_trace (I := fun ps s => s.tunnel.Asks k ps) (fun _ _ _ _ hI hs => asks_step hI hs)
      Tunnel.asks_init h.run
  exact hasks.asked.passed_on_iff (hasks.order.clients k)

/-- The socket takes the request byte by byte, the second one only when the zero-byte write is on its way. -/
def askedRun : List JointAct :=
  [.other (.acceptBrowser .zero .zero), .other (.connect 0), .other (.client 0 0 .connected),
    .other (.client 0 1 (.read [71, 72])), .other (.client 0 1 (.wrote 1)), .other (.client 0 0 (.read [])),
    .other (.client 0 0 (.wrote 1))]

theorem asked_iff_small :
    ∃ s q, Enters .small askedRun 0 s ∧ q ≠ [] ∧ q <+: (s.tunnel.clients 0).obj.forwarded := by
  obtain ⟨s, hs⟩ : ∃ s, Enters .small askedRun 0 s := ⟨_, rfl, 0, List.mem_cons_self⟩
  obtain ⟨q, -, hne, hq⟩ := (asked_iff hs).2 ⟨[], [71, 72], [.taken 1, .taken 1], rfl, by decide⟩
  exact ⟨s, q, hs, hne, hq⟩

/-- The zero-byte read and write complete at once, and the browser has not sent anything yet. -/
theorem waits_unasked :
    ∃ s, Enters .small [.other (.acceptBrowser .zero .zero), .other (.connect 0), .other (.client 0 0 .connected),
        .other (.client 0 0 (.read []))] 0 s ∧
      (s.tunnel.clients 0).obj.taken = [] ∧ (s.tunnel.clients 0).obj.forwarded = [] :=
  ⟨_, ⟨rfl, 0, List.mem_cons_of_mem _ List.mem_cons_self⟩, rfl, rfl⟩

end Joint
end Rabin
