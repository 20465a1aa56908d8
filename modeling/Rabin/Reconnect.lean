import Rabin.RoundTrip
import Rabin.Lib.Lts

/-!
# One server, one client after another

`connect_to_client` and `disconnect_from_client` leave the cache of the server as it is, a new client
starts with an empty one. Whether its files come through depends on the blocks that are the first of
their number on its connection (`served_iff`).
-/

namespace Rabin
open Reads Mirror

inductive ServiceOp
  | connect
  | send (file : List UInt8)
  | disconnect

/-- A connection: the files sent on it and the bytes it has taken. -/
structure Session where
  files : List (List UInt8)
  stream : List UInt8

structure Service where
  srv : RabinServer
  /-- the files sent on the connection that is open -/
  cur : Option (List (List UInt8))
  closed : List Session

namespace Service

def init : Service := ⟨.fresh [], none, []⟩

def sessions (s : Service) : List Session :=
  s.closed ++ (s.cur.map fun files => ⟨files, s.srv.sock.accepted⟩).toList

end Service

/-- The blocks of some files. -/
def Params.blocksIn (p : Params) (files : List (List UInt8)) : List (List UInt8) := files.flatMap p.chunks

namespace Params
variable (p : Params)

/-- An `accept` puts a new connection in the place of the old one, closed or not. -/
def serviceStep (s : Service) : ServiceOp → Option Service
  | .connect => some ⟨{ s.srv with sock := .open' [] }, some [], s.sessions⟩
  | .send file =>
    match s.cur with
    | none => none
    | some files => (p.sendFile s.srv file).map fun (_, srv) => { s with srv := srv, cur := some (files ++ [file]) }
  | .disconnect => some { s with cur := none, closed := s.sessions }

/-- A new client on this connection receives every file as it was sent. -/
def Served (ses : Session) : Prop :=
  ∀ conn, tokens conn = ses.stream.map some →
    List.Forall₂ (fun file r => r.last = .eof ∧ r.file = file) ses.files
      (p.host.receiveFiles ses.files.length .empty conn)

/-- A block of `new` that is the first of its number there differs from the last one of that number in `old`. -/
def FirstsDiffer (old new : List (List UInt8)) : Prop :=
  ∀ us b ws, new = us ++ b :: ws → (∀ u ∈ us, p.hashFunction u ≠ p.hashFunction b) →
    lastWith p.hashFunction (p.hashFunction b) old ≠ some b

variable {p} {c : ByteCache} {m : Blocks} {conn : Conn UInt8} {ts : List (Option UInt8)}

/-- The client holds part of what the server's cache holds. -/
def Within (m : Blocks) (c : ByteCache) : Prop := ∀ k, m.cache k = none ∨ m.cache k = c k

theorem Within.absorb (h : Within m c) {b : List UInt8}
    (hb : hit p.hashFunction c b = true → hit p.hashFunction m.cache b = true) :
    Within (p.absorb c m b) (learn p.hashFunction c b) := by
  intro k
  rw [cache_absorb p hb]
  by_cases hk : k = p.hashFunction b
  · rw [hk, learn_self, learn_self]
    exact .inr rfl
  · rw [learn_of_ne hk, learn_of_ne hk]
    exact h k

/-- A hit the client cannot undo is a block it does not hold at all. -/
theorem receiveLoop_absent {bs : List (List UInt8)} (hb : ∀ b ∈ bs, Sized b) (hw : Within m c)
    (hd : ¬ Decodable p.hashFunction c m.cache bs) {is : List Item}
    (ht : tokens conn = (p.emit c (bs.map .block ++ is)).map some ++ ts) (n : UInt32) (file : List UInt8) :
    ∃ fuel r, p.host.receiveLoop fuel n file m conn = some r ∧ r.last = .outOfRange := by
  induction bs generalizing c m conn n file with
  | nil => exact absurd trivial hd
  | cons b bs ih =>
    have hbs := hb b (List.mem_cons_self ..)
    rw [List.map_cons, List.cons_append, emit_block, List.map_append, List.append_assoc] at ht
    by_cases hbad : hit p.hashFunction c b = true ∧ hit p.hashFunction m.cache b ≠ true
    · rcases hbad with ⟨hc, hm⟩
      have hnone : m.get (p.hashFunction b) = none := by
        rcases hw (p.hashFunction b) with h | h
        · exact Option.map_eq_none_iff.1 h
        · exact absurd (hit_iff.2 (h.trans (hit_iff.1 hc))) hm
      rcases p.receiveBlock_absent hbs hc hnone ht with ⟨conn', -, h⟩
      refine ⟨1, ⟨.outOfRange, file, n, m, conn'⟩, ?_, rfl⟩
      rw [Host.receiveLoop, h]
    · have hundo : hit p.hashFunction c b = true → hit p.hashFunction m.cache b = true := by
        intro hc
        by_contra hm
        exact hbad ⟨hc, hm⟩
      rcases p.receiveBlock_frame hbs hundo ht with ⟨conn', blk, h1, -, h2⟩
      have hd' : ¬ Decodable p.hashFunction (learn p.hashFunction c b) (p.absorb c m b).cache bs := by
        intro h
        rw [cache_absorb p hundo] at h
        exact hd ⟨hundo, h⟩
      rcases ih (fun x hx => hb x (List.mem_cons_of_mem _ hx)) (hw.absorb hundo) hd' h1 (n + 1) (file ++ blk.data) with
        ⟨fuel, r, hr, hlast⟩
      refine ⟨fuel + 1, r, ?_, hlast⟩
      rw [Host.receiveLoop, h2]
      exact hr

/-! ### One connection -/

theorem emit_files (c : ByteCache) (f : List UInt8) (fs : List (List UInt8)) :
    p.emit c ((f :: fs).flatMap p.fileItems) =
      p.emit c (p.fileItems f) ++ p.emit (learnAll p.hashFunction c (p.chunks f)) (fs.flatMap p.fileItems) := by
  rw [List.flatMap_cons, emit_append, after_fileItems]

theorem receiveFile_decodable {f : List UInt8} (hd : Decodable p.hashFunction c m.cache (p.chunks f))
    (hw : Within m c)
    (ht : tokens conn = (p.emit c (p.fileItems f)).map some ++ ts) :
    ∃ r, p.host.receiveFile m conn = some r ∧ r.last = .eof ∧ r.file = f ∧ tokens r.conn = ts ∧
      r.blocks.cache = learnAll p.hashFunction m.cache (p.chunks f) ∧
      Within r.blocks (learnAll p.hashFunction c (p.chunks f)) := by
  rcases p.receiveFile_whole (fun b hb => p.sized_of_mem_chunks hb) hd ht with ⟨conn', h1, h2⟩
  refine ⟨_, h2, rfl, p.flatten_chunks f, h1, p.cache_absorbAll hd, ?_⟩
  intro k
  rw [cache_absorbAll p hd, learnAll_apply, learnAll_apply]
  cases lastWith p.hashFunction k (p.chunks f) with
  | none => exact hw k
  | some b => exact .inr rfl

theorem files_of_decodable {files : List (List UInt8)} (hw : Within m c)
    (hd : Decodable p.hashFunction c m.cache (p.blocksIn files))
    (ht : tokens conn = (p.emit c (files.flatMap p.fileItems)).map some) :
    List.Forall₂ (fun file r => r.last = .eof ∧ r.file = file) files (p.host.receiveFiles files.length m conn) := by
  induction files generalizing c m conn with
  | nil => exact .nil
  | cons f fs ih =>
    rw [emit_files, List.map_append] at ht
    rcases decodable_append.1 hd with ⟨hd1, hd2⟩
    rcases receiveFile_decodable hd1 hw ht with ⟨r, hr, hlast, hfile, hconn, hcache, hw'⟩
    rw [← hcache] at hd2
    rw [List.length_cons, Host.receiveFiles, hr]
    simp only [hlast, reduceCtorEq, if_false]
    exact .cons ⟨hlast, hfile⟩ (ih hw' hd2 hconn)

theorem decodable_of_files {files : List (List UInt8)} (hw : Within m c)
    (ht : tokens conn = (p.emit c (files.flatMap p.fileItems)).map some)
    (hr : List.Forall₂ (fun file r => r.last = .eof ∧ r.file = file) files (p.host.receiveFiles files.length m conn)) :
    Decodable p.hashFunction c m.cache (p.blocksIn files) := by
  induction files generalizing c m conn with
  | nil => exact trivial
  | cons f fs ih =>
    rw [emit_files, List.map_append] at ht
    by_cases hd : Decodable p.hashFunction c m.cache (p.chunks f)
    · rcases receiveFile_decodable hd hw ht with ⟨r, h, hlast, -, hconn, hcache, hw'⟩
      rw [List.length_cons, Host.receiveFiles, h] at hr
      simp only [hlast, reduceCtorEq, if_false] at hr
      refine decodable_append.2 ⟨hd, ?_⟩
      rw [← hcache]
      exact ih hw' hconn (List.forall₂_cons.1 hr).2
    · exfalso
      rcases receiveLoop_absent (fun b hb => p.sized_of_mem_chunks hb) hw hd ht 0 [] with ⟨fuel, r, h, hlast⟩
      rw [List.length_cons, Host.receiveFiles, p.host.receiveFile_of_loop h] at hr
      have heof := (List.forall₂_cons.1 hr).1.1
      rw [hlast] at heof
      cases heof

theorem served_iff_decodable (c : ByteCache) (files : List (List UInt8)) :
    p.Served ⟨files, p.emit c (files.flatMap p.fileItems)⟩ ↔
      Decodable p.hashFunction c (fun _ => none) (p.blocksIn files) := by
  have hw : Within .empty c := fun _ => .inl rfl
  constructor
  · intro h
    have ht : tokens [.piece (p.emit c (files.flatMap p.fileItems))] =
        (p.emit c (files.flatMap p.fileItems)).map some :=
      List.append_nil _
    exact decodable_of_files hw ht (h _ ht)
  · intro hd conn ht
    exact files_of_decodable hw hd ht

theorem served_iff_firstsDiffer (old files : List (List UInt8)) :
    p.Served ⟨files, p.emit (learnAll p.hashFunction (fun _ => none) old) (files.flatMap p.fileItems)⟩ ↔
      p.FirstsDiffer old (p.blocksIn files) := by
  have hlast (k : ℕ) : learnAll p.hashFunction (fun _ => none) old k = lastWith p.hashFunction k old := by
    rw [learnAll_apply, Option.or_none]
  rw [served_iff_decodable, decodable_empty_iff]
  simp only [hlast]
  rfl

/-! ### The life of a server -/

/-- Every connection has taken what the server writes for its files when its cache has learnt the blocks
of the connections before. -/
structure Logged (p : Params) (s : Service) : Prop where
  plan : s.srv.sock.plan = []
  cache : s.srv.blocks.cache = learnAll p.hashFunction (fun _ => none) (p.blocksIn (s.sessions.flatMap Session.files))
  streams : ∀ earlier ses, earlier ++ [ses] <+: s.sessions →
    ses.stream = p.emit (learnAll p.hashFunction (fun _ => none) (p.blocksIn (earlier.flatMap Session.files)))
      (ses.files.flatMap p.fileItems)

theorem blocksIn_append (fs gs : List (List UInt8)) : p.blocksIn (fs ++ gs) = p.blocksIn fs ++ p.blocksIn gs :=
  List.flatMap_append ..

theorem after_files (c : ByteCache) (files : List (List UInt8)) :
    p.after c (files.flatMap p.fileItems) = learnAll p.hashFunction c (p.blocksIn files) := by
  rw [after, blocksOf_files, blocksIn]

theorem logged_init : p.Logged .init where
  plan := rfl
  cache := rfl
  streams earlier ses hp := by
    have h := hp.length_le
    rw [List.length_append] at h
    exact absurd h (Nat.not_succ_le_zero _)

theorem serviceStep_send {s s' : Service} {file : List UInt8} (h : p.serviceStep s (.send file) = some s') :
    ∃ files, s.cur = some files ∧ s' = { s with srv := p.sent s.srv file, cur := some (files ++ [file]) } := by
  unfold serviceStep at h
  dsimp only at h
  split at h
  · cases h
  · rename_i files hcur
    obtain ⟨⟨n, srv⟩, hsend, rfl⟩ := Option.map_eq_some_iff.1 h
    rw [p.sendFile_eq_sent (p.length_lt_of_sendFile file hsend), Option.some.injEq, Prod.mk.injEq] at hsend
    rcases hsend with ⟨-, rfl⟩
    exact ⟨files, hcur, rfl⟩

theorem Logged.send {s : Service} (h : p.Logged s) {files : List (List UInt8)} (hcur : s.cur = some files)
    (file : List UInt8) : p.Logged { s with srv := p.sent s.srv file, cur := some (files ++ [file]) } := by
  have hses : s.sessions = s.closed ++ [⟨files, s.srv.sock.accepted⟩] := by
    rw [Service.sessions, hcur]
    rfl
  have hstream := h.streams s.closed ⟨files, s.srv.sock.accepted⟩ (hses ▸ List.prefix_rfl)
  refine ⟨p.plan_sent h.plan file, ?_, ?_⟩
  · have hfiles :
        (s.closed ++ [(⟨files ++ [file], (p.sent s.srv file).sock.accepted⟩ : Session)]).flatMap Session.files =
        s.sessions.flatMap Session.files ++ [file] := by
      rw [hses, List.flatMap_append, List.flatMap_append, List.append_assoc]
      simp
    rw [cache_sent, after_fileItems, h.cache]
    refine Eq.trans ?_ (congrArg (fun fs => learnAll p.hashFunction _ (p.blocksIn fs)) hfiles.symm)
    rw [blocksIn_append, learnAll_append]
    simp [blocksIn]
  · intro earlier ses hp
    rcases List.prefix_concat_iff.1 hp with heq | hp
    · rcases List.append_inj' heq rfl with ⟨rfl, hlast⟩
      cases hlast
      have hall : s.srv.blocks.cache = p.after (learnAll p.hashFunction (fun _ => none)
          (p.blocksIn (s.closed.flatMap Session.files))) (files.flatMap p.fileItems) := by
        rw [after_files, h.cache, hses, List.flatMap_append, blocksIn_append, learnAll_append]
        simp
      show (p.sent s.srv file).sock.accepted = p.emit _ ((files ++ [file]).flatMap p.fileItems)
      rw [accepted_sent p h.plan, List.flatMap_append, emit_append, ← hall]
      rw [show s.srv.sock.accepted = _ from hstream]
      simp
    · refine h.streams earlier ses (hp.trans ?_)
      rw [hses]
      exact List.prefix_append ..

theorem Logged.step {s s' : Service} (h : p.Logged s) {op : ServiceOp} (hr : p.serviceStep s op = some s') :
    p.Logged s' := by
  cases op with
  | connect =>
    cases hr
    have hfiles : (s.sessions ++ [(⟨[], []⟩ : Session)]).flatMap Session.files = s.sessions.flatMap Session.files := by
      rw [List.flatMap_append]
      exact List.append_nil _
    refine ⟨rfl, ?_, ?_⟩
    · refine h.cache.trans (congrArg (fun fs => learnAll p.hashFunction _ (p.blocksIn fs)) ?_)
      exact hfiles.symm
    · intro earlier ses hp
      rcases List.prefix_concat_iff.1 hp with heq | hp
      · rcases List.append_inj' heq rfl with ⟨rfl, hlast⟩
        cases hlast
        rfl
      · exact h.streams earlier ses hp
  | disconnect =>
    cases hr
    have hses : (⟨s.srv, none, s.sessions⟩ : Service).sessions = s.sessions := List.append_nil _
    refine ⟨h.plan, ?_, ?_⟩
    · rw [hses]
      exact h.cache
    · rw [hses]
      exact h.streams
  | send file =>
    obtain ⟨files, hcur, rfl⟩ := serviceStep_send hr
    exact h.send hcur file

theorem Served.first {ses : Session} (h : p.Served ses) {f : List UInt8} {fs : List (List UInt8)}
    (hf : ses.files = f :: fs) : (p.host.receiveFile .empty [.piece ses.stream]).map Received.last = some .eof := by
  have hr := h [.piece ses.stream] (List.append_nil _)
  rw [hf, List.length_cons, Host.receiveFiles] at hr
  cases hrec : p.host.receiveFile .empty [.piece ses.stream] with
  | none =>
    rw [hrec] at hr
    cases hr
  | some r =>
    rw [hrec] at hr
    exact congrArg some (List.forall₂_cons.1 hr).1.1

variable (p) in
/-- After any sequence of operations every client has received its files if and only if on each
connection the blocks that are the first of their number there differ from the last ones of that number
on the connections before. -/
theorem served_iff (ops : List ServiceOp) {s : Service} (hr : Lts.run p.serviceStep .init ops = some s) :
    (∀ ses ∈ s.sessions, p.Served ses) ↔
      ∀ earlier ses, earlier ++ [ses] <+: s.sessions →
        p.FirstsDiffer (p.blocksIn (earlier.flatMap Session.files)) (p.blocksIn ses.files) := by
  have hs : p.Logged s := Lts.invariant (fun _ _ _ h hr => h.step hr) logged_init hr
  have hone (earlier : List Session) (ses : Session) (hp : earlier ++ [ses] <+: s.sessions) :
      p.Served ses ↔ p.FirstsDiffer (p.blocksIn (earlier.flatMap Session.files)) (p.blocksIn ses.files) := by
    rw [← served_iff_firstsDiffer, ← hs.streams earlier ses hp]
  constructor
  · intro h earlier ses hp
    exact (hone earlier ses hp).1 (h ses (hp.subset (by simp)))
  · intro h ses hmem
    rcases List.append_of_mem hmem with ⟨earlier, later, heq⟩
    have hp : earlier ++ [ses] <+: s.sessions := ⟨later, by rw [heq, List.append_assoc]; rfl⟩
    exact (hone earlier ses hp).2 (h earlier ses hp)

theorem served_iff_small :
    ∃ s, Lts.run small.serviceStep .init [.connect, .send [97], .disconnect, .connect, .send [98]] = some s ∧
      s.sessions.length = 2 ∧
      ((∀ ses ∈ s.sessions, small.Served ses) ↔
        ∀ earlier ses, earlier ++ [ses] <+: s.sessions →
          small.FirstsDiffer (small.blocksIn (earlier.flatMap Session.files)) (small.blocksIn ses.files)) :=
  ⟨_, rfl, rfl, small.served_iff [.connect, .send [97], .disconnect, .connect, .send [98]] rfl⟩

/-- The same one-byte file to two clients: the second is sent `old` for a block it does not hold. -/
theorem second_client_fails :
    ∃ s, Lts.run small.serviceStep .init [.connect, .send [97], .disconnect, .connect, .send [97]] = some s ∧
      ¬ ∀ ses ∈ s.sessions, small.Served ses := by
  refine ⟨_, rfl, ?_⟩
  intro h
  have hfirst := (h _ (List.mem_of_getElem? (i := 1) rfl)).first rfl
  revert hfirst
  decide

end Params
end Rabin
