import Rabin.Writes

/-!
# What the cache claims after a failed write

The server marks a block `old` if the last block under its number had the same bytes, whether or not
that block got through. So every `old` descriptor is backed by a complete frame exactly if no block
that failed as new is followed by an equal one (`backed_iff`).
-/

namespace Rabin
open Mirror

/-- The writes made for one block. -/
structure Transmission where
  block : Block
  desc : Write
  data : Option Write

namespace Transmission

def num (t : Transmission) : ℕ := t.block.blockNum

/-- Descriptor and data were accepted to the last byte. -/
def Whole (t : Transmission) : Prop :=
  t.desc.Complete ∧ ∃ w, t.data = some w ∧ w.msg = .data t.block ∧ w.Complete

end Transmission

/-- A write of data at the front of the log. -/
def headData : List Write → Option Write
  | [] => none
  | w :: _ =>
    match w.msg with
    | .data _ => some w
    | _ => none

/-- The log, block by block. -/
def transmissions : List Write → List Transmission
  | [] => []
  | w :: log =>
    match w.msg with
    | .desc e => ⟨e, w, headData log⟩ :: transmissions log
    | _ => transmissions log

/-- The bytes of the last block under the number `n`. -/
def lastBytes (n : ℕ) (ts : List Transmission) : Option (List UInt8) :=
  (lastWith Transmission.num n ts).map (·.block.data)

/-- A descriptor that says `old` comes after a complete frame of the same bytes under the same number,
and nothing different has gone out under that number in between. -/
def Backed (ts : List Transmission) : Prop :=
  ∀ pre t, pre ++ [t] <+: ts → t.block.old = true →
    ∃ pre' u mid, pre = pre' ++ u :: mid ∧ u.num = t.num ∧ u.block.old = false ∧ u.block.data = t.block.data ∧
      u.Whole ∧ ∀ v ∈ mid, v.num = t.num → v.block.data = t.block.data

/-- If the next block under a number is the same again, then the first of them got through. -/
def RepeatsWhole (ts : List Transmission) : Prop :=
  ∀ pre t mid u, pre ++ t :: mid ++ [u] <+: ts → t.num = u.num → (∀ v ∈ mid, v.num ≠ u.num) →
    t.block.data = u.block.data → lastBytes t.num pre ≠ some t.block.data → t.Whole

/-- `old` is what the log says about the number of the block. -/
def Lawful (ts : List Transmission) : Prop :=
  ∀ pre t, pre ++ [t] <+: ts → (t.block.old = true ↔ lastBytes t.num pre = some t.block.data)

theorem lastBytes_concat (n : ℕ) (ts : List Transmission) (t : Transmission) :
    lastBytes n (ts ++ [t]) = if t.num = n then some t.block.data else lastBytes n ts := by
  rw [lastBytes, lastWith_concat]
  split
  · rfl
  · rfl

theorem lastBytes_of_same {n : ℕ} {us ws : List Transmission} {u : Transmission} (hu : u.num = n)
    (h : ∀ v ∈ ws, v.num = n → v.block.data = u.block.data) : lastBytes n (us ++ u :: ws) = some u.block.data := by
  induction ws using List.reverseRecOn with
  | nil => rw [lastBytes_concat, if_pos hu]
  | append_singleton ws w ih =>
    rw [← List.cons_append, ← List.append_assoc, lastBytes_concat]
    split
    · rename_i hw
      rw [h w (by simp) hw]
    · exact ih fun v hv => h v (List.mem_append_left _ hv)

theorem repeatsWhole_of_backed {ts : List Transmission} (hl : Lawful ts) (h : Backed ts) : RepeatsWhole ts := by
  intro pre t mid u hp htu hmid hd hfirst
  have hlast : lastBytes u.num (pre ++ t :: mid) = some t.block.data := by
    refine lastBytes_of_same htu ?_
    intro v hv hvn
    exact absurd hvn (hmid v hv)
  have hold := (hl (pre ++ t :: mid) u hp).2 (hlast.trans (congrArg some hd))
  rcases h (pre ++ t :: mid) u hp hold with ⟨pre', w, mid', heq, hwn, -, hwd, hwhole, hsame⟩
  rcases List.append_eq_append_iff.1 heq with ⟨a, -, ha⟩ | ⟨a, hpre, ha⟩
  · cases a with
    | nil =>
      cases ha
      exact hwhole
    | cons x a =>
      rw [List.cons_append, List.cons.injEq] at ha
      exact absurd hwn (hmid w (by rw [ha.2]; simp))
  · cases a with
    | nil =>
      cases ha
      exact hwhole
    | cons x a =>
      rw [List.cons_append, List.cons.injEq] at ha
      rcases ha with ⟨rfl, hmid'⟩
      -- `w` is before `t`, so `t` is not the first of its bytes
      have hbytes : lastBytes t.num pre = some w.block.data := by
        rw [hpre]
        refine lastBytes_of_same (hwn.trans htu.symm) ?_
        intro v hv hvn
        rw [hwd]
        exact hsame v (by rw [hmid']; simp [hv]) (hvn.trans htu)
      exact absurd (hbytes.trans (congrArg some (hwd.trans hd.symm))) hfirst

theorem backed_of_repeatsWhole {ts : List Transmission} (hl : Lawful ts) (h : RepeatsWhole ts) : Backed ts := by
  intro pre
  induction hn : pre.length using Nat.strong_induction_on generalizing pre with
  | _ n ih =>
    intro t hp hold
    have hlast := (hl pre t hp).1 hold
    obtain ⟨u, hu, hud⟩ := Option.map_eq_some_iff.1 hlast
    rcases lastWith_eq_some hu with ⟨pre₁, mid, rfl, hun, hmid⟩
    have hpu : pre₁ ++ [u] <+: ts := by
      refine List.IsPrefix.trans ?_ hp
      rw [List.append_assoc]
      exact (List.prefix_append_right_inj _).2 ⟨mid ++ [t], rfl⟩
    by_cases hou : u.block.old = true
    · have hlt : pre₁.length < n := by
        rw [← hn, List.length_append, List.length_cons]
        omega
      rcases ih _ hlt pre₁ rfl u hpu hou with ⟨pre', w, mid', rfl, hwn, hw, hwd, hwhole, hsame⟩
      refine ⟨pre', w, mid' ++ u :: mid, by simp, hwn.trans hun, hw, hwd.trans hud, hwhole, ?_⟩
      intro v hv hvn
      rcases List.mem_append.1 hv with hv | hv
      · exact (hsame v hv (hvn.trans hun.symm)).trans hud
      · rcases List.mem_cons.1 hv with rfl | hv
        · exact hud
        · exact absurd hvn (hmid v hv)
    · have hfirst : lastBytes u.num pre₁ ≠ some u.block.data := fun hb => hou ((hl pre₁ u hpu).2 hb)
      have hwhole := h pre₁ u mid t (by simpa using hp) hun hmid hud hfirst
      refine ⟨pre₁, u, mid, rfl, hun, Bool.eq_false_iff.2 hou, hud, hwhole, ?_⟩
      intro v hv hvn
      exact absurd hvn (hmid v hv)

/-! ### The log of a server -/

theorem transmissions_append {log more : List Write} (h : headData more = none) :
    transmissions (log ++ more) = transmissions log ++ transmissions more := by
  induction log with
  | nil => rfl
  | cons w log ih =>
    have hh : headData (log ++ more) = headData log := by
      cases log with
      | nil => exact h
      | cons x log => rfl
    rw [List.cons_append, transmissions, transmissions, ih, hh]
    cases w.msg with
    | desc e => rfl
    | data e => rfl
    | eof => rfl

namespace Params
variable (p : Params) {srv : RabinServer}

theorem transmissions_offer (srv : RabinServer) (b : List UInt8) :
    ∃ t, t.block = p.entry b srv.blocks ∧
      transmissions (p.offer srv b).sock.log = transmissions srv.sock.log ++ [t] := by
  rcases p.offer_log srv b with ⟨-, h⟩ | ⟨-, -, r, h⟩
  · rw [h, transmissions_append rfl]
    exact ⟨_, rfl, rfl⟩
  · rw [h, transmissions_append rfl]
    exact ⟨_, rfl, rfl⟩

/-- The cache is what the log says, and so is every `old`. -/
structure Recorded (srv : RabinServer) : Prop where
  cache : ∀ n, srv.blocks.cache n = lastBytes n (transmissions srv.sock.log)
  lawful : Lawful (transmissions srv.sock.log)

theorem recorded_fresh (plan : List Outcome) : Recorded (.fresh plan) where
  cache _ := rfl
  lawful pre t hp := by
    have h := hp.length_le
    rw [List.length_append] at h
    exact absurd h (Nat.not_succ_le_zero _)

variable {p}

theorem Recorded.offer (h : Recorded srv) (b : List UInt8) : Recorded (p.offer srv b) := by
  rcases p.transmissions_offer srv b with ⟨t, ht, hts⟩
  have hnum : t.num = p.hashFunction b := congrArg Block.blockNum ht
  have hbytes : t.block.data = b := congrArg Block.data ht
  have hold : t.block.old = hit p.hashFunction srv.blocks.cache b := congrArg Block.old ht
  constructor
  · intro n
    rw [hts, lastBytes_concat, cache_offer, hnum, hbytes]
    split
    · rename_i hn
      rw [← hn, learn_self]
    · rename_i hn
      rw [learn_of_ne (Ne.symm hn), h.cache]
  · rw [hts]
    intro pre t' hp
    rcases List.prefix_concat_iff.1 hp with heq | hp
    · rcases List.append_inj' heq rfl with ⟨rfl, hlast⟩
      cases hlast
      rw [hold, hit_iff, h.cache, hnum, hbytes]
    · exact h.lawful pre t' hp

theorem transmissions_sendEof (srv : RabinServer) :
    transmissions (p.sendEof srv).sock.log = transmissions srv.sock.log := by
  show transmissions (srv.sock.log ++ [_]) = _
  rw [transmissions_append rfl]
  exact List.append_nil _

theorem Recorded.sendEof (h : Recorded srv) : Recorded (p.sendEof srv) := by
  constructor
  · rw [transmissions_sendEof]
    exact h.cache
  · rw [transmissions_sendEof]
    exact h.lawful

theorem Recorded.offerAll {bs : List (List UInt8)} (h : Recorded srv) : Recorded (p.offerAll srv bs) := by
  induction bs generalizing srv with
  | nil => exact h
  | cons b bs ih => exact ih (h.offer b)

theorem Recorded.sendFiles {files : List (List UInt8)} (h : Recorded srv) : Recorded (files.foldl p.sent srv) := by
  induction files generalizing srv with
  | nil => exact h
  | cons f fs ih => exact ih h.offerAll.sendEof

/-- The number and the bytes of each block. -/
def numbered (ts : List Transmission) : List (ℕ × List UInt8) := ts.map fun t => (t.num, t.block.data)

theorem numbered_offerAll (bs : List (List UInt8)) :
    numbered (transmissions (p.offerAll srv bs).sock.log) =
      numbered (transmissions srv.sock.log) ++ bs.map fun b => (p.hashFunction b, b) := by
  induction bs generalizing srv with
  | nil => exact (List.append_nil _).symm
  | cons b bs ih =>
    rcases p.transmissions_offer srv b with ⟨t, ht, hts⟩
    have hone : numbered [t] = [(p.hashFunction b, b)] := by
      rw [numbered, List.map_singleton, Transmission.num, ht]
      rfl
    rw [offerAll_cons, ih, hts, numbered, List.map_append, List.append_assoc]
    exact congrArg (_ ++ ·) (congrArg (· ++ _) hone)

theorem numbered_sendFiles (files : List (List UInt8)) :
    numbered (transmissions (files.foldl p.sent srv).sock.log) =
      numbered (transmissions srv.sock.log) ++ (files.flatMap p.chunks).map fun b => (p.hashFunction b, b) := by
  induction files generalizing srv with
  | nil => exact (List.append_nil _).symm
  | cons f fs ih =>
    rw [List.foldl_cons, ih, sent, transmissions_sendEof, numbered_offerAll, List.flatMap_cons, List.map_append,
      List.append_assoc]

variable (p) in
/-- The blocks are those of the files, whatever the writes do. The descriptors that say `old` can be
relied on if and only if of two equal blocks in a row under one number the first, if it was due as new,
got through. -/
theorem backed_iff (plan : List Outcome) {files : List (List UInt8)} {ns : List (ℤ × List UInt8)}
    (hr : p.sendFiles (.fresh plan) files = some (ns, srv)) :
    numbered (transmissions srv.sock.log) = (files.flatMap p.chunks).map (fun b => (p.hashFunction b, b)) ∧
      (Backed (transmissions srv.sock.log) ↔ RepeatsWhole (transmissions srv.sock.log)) := by
  have hrec : Recorded srv := by
    rw [p.sendFiles_eq hr]
    exact (recorded_fresh plan).sendFiles
  constructor
  · rw [p.sendFiles_eq hr, numbered_sendFiles]
    rfl
  · constructor
    · exact repeatsWhole_of_backed hrec.lawful
    · exact backed_of_repeatsWhole hrec.lawful

theorem backed_iff_small :
    ∃ ns srv, small.sendFiles (.fresh [.accept 64, .accept 64, .error]) [[97], [97]] = some (ns, srv) ∧
      (Backed (transmissions srv.sock.log) ↔ RepeatsWhole (transmissions srv.sock.log)) := by
  have hf : ∀ f ∈ ([[97], [97]] : List (List UInt8)), f.length < 2 ^ 32 := by decide
  rcases small.exists_sendFiles hf (.fresh [.accept 64, .accept 64, .error]) with ⟨ns, h⟩
  exact ⟨ns, _, h, (small.backed_iff _ h).2⟩

/-- The first descriptor fails, and the second time the block is called `old`. -/
theorem failed_block_old :
    ∃ ns srv, small.sendFiles (.fresh [.error]) [[97], [97]] = some (ns, srv) ∧
      ¬ Backed (transmissions srv.sock.log) := by
  have hf : ∀ f ∈ ([[97], [97]] : List (List UInt8)), f.length < 2 ^ 32 := by decide
  rcases small.exists_sendFiles hf (.fresh [.error]) with ⟨ns, h⟩
  refine ⟨ns, _, h, ?_⟩
  intro hb
  obtain ⟨t, u, hts, ht, hu⟩ : ∃ t u,
      transmissions ([[97], [97]].foldl small.sent (.fresh [.error])).sock.log = [t, u] ∧
      ¬ t.desc.Complete ∧ u.block.old = true := ⟨_, _, rfl, by decide, by decide⟩
  rcases hb [t] u (by rw [hts]; exact List.prefix_rfl) hu with ⟨pre, v, mid, heq, -, -, -, hv, -⟩
  have hmem : v ∈ [t] := by rw [heq]; simp
  rw [List.mem_singleton.1 hmem] at hv
  exact ht hv.1

end Params
end Rabin
