import Mathlib.Algebra.BigOperators.Group.List.Basic
import Rabin.Bridges
import Rabin.Lib.Lts

/-!
# How much `handle_upstream_read` copies

`handle_upstream_read` of `tcpproxy_client` copies the file that `receive_file` came back with into
`upstream_data_`, whatever its length. The file has at most 8192 bytes as long as each call of
`receive_file` stops between two frames (`copy_bounded`): it is then made of blocks of one file, and
`tcpproxy_server` sends no longer ones. A call that times out inside a frame leaves the next one in the
middle of the data, which can say anything (`copy_overflows`).
-/

namespace Rabin
open Mirror

/-- The bytes of the blocks before the first end of a file. -/
def lead : List Item → ℕ
  | [] => 0
  | .block b :: is => b.length + lead is
  | .eof :: _ => 0

theorem lead_blocks (bs : List (List UInt8)) (is : List Item) :
    lead (bs.map .block ++ is) = bs.flatten.length + lead is := by
  induction bs with
  | nil => exact (Nat.zero_add _).symm
  | cons b bs ih =>
    rw [List.map_cons, List.cons_append, lead, ih, List.flatten_cons, List.length_append, Nat.add_assoc]

theorem length_le_lead {bs : List (List UInt8)} {is more : List Item} (h : is = bs.map .block ++ more) :
    bs.flatten.length ≤ lead is := by
  rw [h, lead_blocks]
  exact Nat.le_add_right ..

namespace Params
variable (p : Params)

/-- From any point on, what comes before the next end of a file is part of that file. -/
theorem lead_drop_files {files : List (ℕ × List UInt8)} {n : ℕ} (hf : ∀ f ∈ files, f.2.length ≤ n) (k : ℕ) :
    lead ((files.flatMap fun f => p.fileItems f.2).drop k) ≤ n := by
  induction files generalizing k with
  | nil =>
    rw [List.flatMap_nil, List.drop_nil]
    exact Nat.zero_le n
  | cons f fs ih =>
    have ih' := ih fun g hg => hf g (List.mem_cons_of_mem f hg)
    rw [List.flatMap_cons, fileItems, List.append_assoc]
    rcases Nat.lt_or_ge (p.chunks f.2).length k with hk | hk
    · obtain ⟨d, rfl⟩ : ∃ d, k = (p.chunks f.2).length + (d + 1) := ⟨k - (p.chunks f.2).length - 1, by omega⟩
      have hlen : ((p.chunks f.2).map Item.block).length = (p.chunks f.2).length := List.length_map ..
      rw [← hlen, ← List.drop_drop, List.drop_left]
      exact ih' d
    · have hdrop (is : List Item) : ((p.chunks f.2).map Item.block ++ ([Item.eof] ++ is)).drop k =
          ((p.chunks f.2).drop k).map Item.block ++ Item.eof :: is := by
        rw [List.drop_append_of_le_length (by rwa [List.length_map]), List.map_drop]
        rfl
      have hflat : ((p.chunks f.2).take k).flatten.length + ((p.chunks f.2).drop k).flatten.length = f.2.length := by
        rw [← List.length_append, ← List.flatten_append, List.take_append_drop, flatten_chunks]
      have hle := hf f List.mem_cons_self
      rw [hdrop, lead_blocks, lead]
      omega

end Params

theorem ClientBridge.step_c {b b' : ClientBridge} {a : ClientAct} (h : b.step a = some b') :
    b'.c = b.c ∨ b'.c = none := by
  rcases step_cases h with ⟨-, hr⟩ | ⟨t, rfl, -⟩
  · rcases handleUpstreamRead_cases hr with ⟨-, rfl⟩ | ⟨-, rfl⟩
    · exact .inr rfl
    · exact .inl rfl
  · exact .inl rfl

namespace Params
variable (p : Params)

/-- A call of `receive_file` comes to the end of a file, or times out between two frames. -/
def AtFrames (s : Proxies) : ProxyAct → Prop
  | .receive _ n => p.WholeFile s.wire n ∨ ∃ (bs : List (List UInt8)) (more : List Item),
      s.wire.pending = bs.map .block ++ more ∧ n = (p.emit s.wire.cli.cache (bs.map .block)).length
  | _ => True

/-- No file that was received is longer than a buffer. -/
structure Fits (s : Proxies) : Prop where
  steady : p.Steady s.wire
  sent : s.wire.sent = s.files.flatMap fun f => p.fileItems f.2
  buffered : ∀ f ∈ s.files, Buffered f.2
  held : ∀ k file, (s.clients k).c = some file → file.length ≤ 8192

variable {p} {s s' : Proxies}

theorem fits_init : p.Fits .init where
  steady := steady_init
  sent := rfl
  buffered _ hf := absurd hf List.not_mem_nil
  held _ _ hc := nomatch hc

theorem Fits.clients (h : p.Fits s) {k : ℕ} {b : ClientBridge}
    (hb : ∀ file, b.c = some file → file.length ≤ 8192) :
    ∀ k' file, (Function.update s.clients k b k').c = some file → file.length ≤ 8192 :=
  (Function.forall_update_iff s.clients fun _ b => ∀ file, b.c = some file → file.length ≤ 8192).2
    ⟨hb, fun k' _ => h.held k'⟩

/-- What a call of `receive_file` stopping between two frames comes back with is part of one file. -/
theorem Fits.pipeReceive (h : p.Fits s) {k n : ℕ} (hg : p.AtFrames s (.receive k n)) {r : Received} {w : Pipe}
    (hr : p.pipeReceive s.wire n = some (r, w)) : p.Steady w ∧ r.file.length ≤ 8192 := by
  have hlead : lead s.wire.pending ≤ 8192 := by
    rw [Pipe.pending, h.sent]
    exact p.lead_drop_files (fun f hf => (h.buffered f hf).2) _
  have hcount {bs : List (List UInt8)} {more : List Item} (hp : s.wire.pending = bs.map .block ++ more) :
      bs.length ≤ bs.flatten.length := by
    have hpos : ∀ i ∈ bs.map List.length, 1 ≤ i := by
      intro i hi
      obtain ⟨b, hb, rfl⟩ := List.mem_map.1 hi
      exact (sized_of_pending h.steady (by rw [hp]; simp [hb])).1
    have hle := List.length_le_sum_of_one_le _ hpos
    rwa [List.length_map, ← List.length_flatten] at hle
  rcases hg with ⟨bs, more, hp, hn⟩ | ⟨bs, more, hp, hn⟩
  · have h1 := hcount hp
    have h2 := length_le_lead hp
    obtain ⟨-, hfile, -, hw, -⟩ := h.steady.receive_whole hp (by omega) hn hr
    exact ⟨hw, by rw [hfile]; omega⟩
  · have h1 := hcount hp
    have h2 := length_le_lead hp
    obtain ⟨-, hfile, -, hw, -⟩ := h.steady.receive_stop hp (by omega) hn hr
    exact ⟨hw, by rw [hfile]; omega⟩

theorem Fits.receive (h : p.Fits s) {k n : ℕ} (hg : p.AtFrames s (.receive k n))
    (hs : p.proxyStep s (.receive k n) = some s') : p.Fits s' := by
  obtain ⟨r, w, -, hr, -, rfl⟩ := proxyStep_receive hs
  obtain ⟨hw, hfile⟩ := h.pipeReceive hg hr
  obtain ⟨-, -, rfl⟩ := pipeReceive_eq hr
  refine ⟨hw, h.sent, h.buffered, h.clients ?_⟩
  rintro file ⟨⟩
  exact hfile

theorem Fits.step (h : p.Fits s) {a : ProxyAct} (hg : p.AtFrames s a) (hs : p.proxyStep s a = some s') :
    p.Fits s' := by
  cases a with
  | acceptBrowser =>
    cases hs
    exact ⟨h.steady, h.sent, h.buffered, h.clients (h.held s.browsers)⟩
  | connect k =>
    obtain ⟨-, -, rfl⟩ := proxyStep_connect hs
    exact ⟨h.steady, h.sent, h.buffered, h.clients (h.held k)⟩
  | client k a =>
    obtain ⟨b, hb, rfl⟩ := Option.map_eq_some_iff.1 hs
    refine ⟨h.steady, h.sent, h.buffered, h.clients fun file hc => ?_⟩
    rcases ClientBridge.step_c hb with hb | hb
    · exact h.held k file (hb.symm.trans hc)
    · rw [hb] at hc
      cases hc
  | receive k n => exact h.receive hg hs
  | accept =>
    obtain ⟨-, rfl⟩ := proxyStep_accept hs
    exact ⟨h.steady, h.sent, h.buffered, h.held⟩
  | server j a =>
    obtain ⟨b, -, rfl⟩ := Option.map_eq_some_iff.1 hs
    exact ⟨h.steady, h.sent, h.buffered, h.held⟩
  | send j q =>
    obtain ⟨w, -, hq, hw, rfl⟩ := proxyStep_send hs
    obtain ⟨hsteady, -, -⟩ := h.steady.send hw
    obtain ⟨⟨n, srv⟩, -, rfl⟩ := Option.map_eq_some_iff.1 hw
    refine ⟨hsteady, ?_, ?_, h.held⟩
    · show s.wire.sent ++ p.fileItems q = _
      rw [h.sent, List.flatMap_append, List.flatMap_singleton]
    · intro f hf
      rcases List.mem_append.1 hf with hf | hf
      · exact h.buffered f hf
      · rw [List.mem_singleton.1 hf]
        exact hq

end Params

/-- `handle_upstream_read` of bridge `k` of `tcpproxy_client` is due, and will copy `file`. -/
structure Proxies.Copies (s : Proxies) (k : ℕ) (file : List UInt8) : Prop where
  response : (s.clients k).response = .reading true
  c : (s.clients k).c = some file

namespace Params
variable {p : Params} {s : Proxies}

/-- In a run in which every call of `receive_file` stops between two frames no more is copied than the buffer
holds. -/
theorem copy_bounded {acts : List ProxyAct} (hg : Lts.Guarded p.proxyStep p.AtFrames .init acts)
    (hr : Lts.run p.proxyStep .init acts = some s) {k : ℕ} {file : List UInt8} (hc : s.Copies k file) :
    file.length ≤ 8192 :=
  (Lts.invariant_of_guarded (fun _ _ _ h hg hs => h.step hg hs) hg fits_init hr).held k file hc.c

theorem copy_bounded_small :
    ∃ s, Lts.run small.proxyStep .init [.acceptBrowser, .connect 0, .client 0 (.upstreamConnect false), .accept,
        .server 0 (.upstreamConnect false), .client 0 .upstreamRead, .send 0 [97], .receive 0 27] = some s ∧
      s.Copies 0 [97] ∧ [97].length ≤ 8192 := by
  have hg : Lts.Guarded small.proxyStep small.AtFrames .init [.acceptBrowser, .connect 0,
      .client 0 (.upstreamConnect false), .accept, .server 0 (.upstreamConnect false), .client 0 .upstreamRead,
      .send 0 [97], .receive 0 27] := by
    iterate 7 refine Lts.guarded_cons trivial rfl ?_
    exact Lts.guarded_cons (.inl ⟨[[97]], [], by decide, by decide⟩) rfl trivial
  obtain ⟨s, hr, hc⟩ : ∃ s, Lts.run small.proxyStep .init [.acceptBrowser, .connect 0,
      .client 0 (.upstreamConnect false), .accept, .server 0 (.upstreamConnect false), .client 0 .upstreamRead,
      .send 0 [97], .receive 0 27] = some s ∧ s.Copies 0 [97] := ⟨_, rfl, by decide, by decide⟩
  exact ⟨s, hr, hc, copy_bounded hg hr hc⟩

/-- The second file holds a descriptor, "the block 'i' has 141 bytes and is new", and the read times out in front
of it. In the third file every 'i' then stands for 141 bytes. -/
def overflowing : List ProxyAct :=
  [.acceptBrowser, .connect 0, .client 0 (.upstreamConnect false), .accept, .server 0 (.upstreamConnect false),
    .client 0 .upstreamRead, .send 0 [105, 105, 105], .server 0 .downstreamWrite, .receive 0 42, .client 0 .upstreamRead,
    .send 0 ([97, 90, 0, 2, 182, 14, 0, 0, 0, 141, 0, 0, 0, 0, 0] ++ List.replicate 115 98),
    .server 0 .downstreamWrite, .send 0 (List.replicate 60 105), .receive 0 28, .client 0 .upstreamRead,
    .receive 0 934]

theorem copy_overflows :
    ∃ s file, Lts.run x64.proxyStep .init overflowing = some s ∧ s.Copies 0 file ∧ 8192 < file.length := by
  have h : (Lts.run x64.proxyStep .init overflowing).any (fun s =>
      decide ((s.clients 0).response = .reading true) && (s.clients 0).c.any (8192 < ·.length)) = true := by
    decide +kernel
  obtain ⟨s, hs, h⟩ := (Option.any_eq_true _ _).1 h
  obtain ⟨hr, h⟩ := Bool.and_eq_true_iff.1 h
  obtain ⟨file, hc, hlen⟩ := (Option.any_eq_true _ _).1 h
  exact ⟨s, file, hs, ⟨of_decide_eq_true hr, hc⟩, of_decide_eq_true hlen⟩

end Params
end Rabin
