import AvoryOS.Lib.Transition
import Mathlib.Data.List.Basic

/-!
# Whose credentials a receiver sees

A stream socket keeps one record of a sender's credentials for all the bytes that it buffers, in
four fields.  `unix_sendmsg_impl` stores them together with its bytes; `unix_send_impl` stores them
after its bytes, when it no longer holds the lock.  A datagram or a sequenced packet has a record of
its own, but the name that `unix_fill_msg_name` reports is read from the socket, after the lock was
given up.
-/

namespace AvoryOS.Unix.Credentials

open Transition Function

/-- `SOCK_STREAM`, `SOCK_DGRAM` and `SOCK_SEQPACKET`. -/
inductive Kind
  | stream | dgram | seqpacket
  deriving DecidableEq

/-- `struct unix_ucred`. -/
@[ext] structure Ucred where
  pid : ℕ
  uid : ℕ
  gid : ℕ
  deriving DecidableEq

/-- `unix_packet_t`, with the thread and the socket that sent it. -/
structure Packet where
  thread : ℕ
  socket : ℕ
  cred : Option Ucred
  senderAddr : Option ℕ
  deriving DecidableEq

/-- A `unix_recvmsg_impl` with room for `n` bytes that has made `loads` of its loads from the
record. -/
structure Reading where
  n : ℕ
  peek : Bool
  loads : ℕ
  cred : Ucred
  deriving DecidableEq

/-- `unix_sock_t`.  A byte of `recvBuf` is given by the thread that sent it.  A thread has `stores`
stores to the record before it, a thread of `unix_sendmsg_impl` under the `lock`.  `returned` are
the credentials and the bytes that `unix_recvmsg_impl` has returned, and is not part of the code.
For the packets `naming`, it has still to fill in the name. -/
structure Sock where
  kind : Kind
  passcred : Bool
  peer : Option ℕ
  recvBuf : List ℕ
  scmCred : Ucred
  scmPending : Bool
  stores : ℕ → ℕ
  lock : Option ℕ
  reading : Option Reading
  returned : List (Option Ucred × List ℕ)
  packets : List Packet
  lastSender : Option ℕ
  naming : List Packet

/-- A socket with `SO_PASSCRED` on which nothing was sent. -/
def fresh (k : Kind) : Sock :=
  ⟨k, true, none, [], ⟨0, 0, 0⟩, false, fun _ => 0, none, none, [], [], none, []⟩

/-- The steps: sections under `recv_lock`, and what runs without it. -/
inductive Event
  /-- `unix_send_impl` by the thread `t` appends `n` bytes, or `unix_sendmsg_impl`, which keeps the
  lock. -/
  | append (t n : ℕ) (keep : Bool)
  /-- The next store of `unix_record_sender_credentials`. -/
  | store (t : ℕ)
  /-- `unix_recv_impl` on a stream. -/
  | recv (n : ℕ) (peek : Bool)
  /-- `unix_recvmsg_impl` on a stream begins. -/
  | recvmsg (n : ℕ) (control : Option Bool) (peek : Bool)
  /-- It makes its next load from the record; after the last it ends. -/
  | load
  /-- `unix_send_impl` of a packet from the socket `k`, which leaves the address uninitialised. -/
  | packet (t k : ℕ) (junk : Option ℕ)
  /-- `unix_sendmsg_impl` of a packet. -/
  | packetmsg (t k : ℕ)
  /-- A packet is received, and `unix_recvmsg_impl` goes on to its name. -/
  | take (msg peek : Bool)
  /-- `unix_fill_msg_name` for a packet. -/
  | fillMsgName (p : Packet)
  /-- The socket is connected, or loses its peer. -/
  | setPeer (k : Option ℕ)

section Model

variable (cred : ℕ → Ucred) (addr : ℕ → Option ℕ)

/-- One of the four stores, of which `k` are left. -/
def recordSenderCredentials (s : Sock) (t : ℕ) : ℕ → Sock
  | 4 => { s with scmCred.pid := (cred t).pid }
  | 3 => { s with scmCred.uid := (cred t).uid }
  | 2 => { s with scmCred.gid := (cred t).gid }
  | 1 => { s with scmPending := true }
  | _ => s

abbrev Sock.Free (s : Sock) : Prop := s.kind = .stream ∧ s.lock = none ∧ s.reading = none

/-- A packet that the thread `t` sends goes to the end of the queue. -/
def enqueue (s : Sock) (t k : ℕ) (a : Option ℕ) : Sock :=
  { s with packets := s.packets ++ [⟨t, k, if s.passcred then some (cred t) else none, a⟩] }

/-- The end of `unix_recvmsg_impl` on a stream.  `n` bytes are what the vectors have room for before
the next message with descriptors. -/
def finish (s : Sock) (n : ℕ) (peek clear : Bool) (c : Option Ucred) : Sock :=
  { s with
    reading := none
    returned := (c, s.recvBuf.take n) :: s.returned
    recvBuf := if peek then s.recvBuf else s.recvBuf.drop n
    scmPending := if clear ∧ ¬peek then false else s.scmPending }

/-- `unix_recvmsg_impl` on a stream; `control` says whether the credentials fit, if there is a
buffer for control data. -/
def recvmsg (s : Sock) (n : ℕ) (control : Option Bool) (peek : Bool) : Sock :=
  if s.scmPending ∧ control = some true then
    { s with reading := some ⟨n, peek, 0, ⟨0, 0, 0⟩⟩ }
  else finish s n peek control.isSome none

/-- A load from the record, or the end after the three loads. -/
def load (s : Sock) (r : Reading) : Sock :=
  match r.loads with
  | 0 => { s with reading := some { r with loads := 1, cred.pid := s.scmCred.pid } }
  | 1 => { s with reading := some { r with loads := 2, cred.uid := s.scmCred.uid } }
  | 2 => { s with reading := some { r with loads := 3, cred.gid := s.scmCred.gid } }
  | _ => finish s r.n r.peek true (some r.cred)

/-- `unix_fill_msg_name`: the name of the peer, or that of the last packet received. -/
def fillMsgName (s : Sock) : Option ℕ :=
  match s.peer with
  | some k => addr k
  | none => if s.kind = .dgram then s.lastSender else none

def step (s : Sock) : Event → Option Sock
  | .append t n keep =>
    if s.Free ∧ 0 < n ∧ (s.stores t = 0 ∨ s.stores t = 4) then
      some { s with
        recvBuf := s.recvBuf ++ List.replicate n t
        stores := if s.passcred then update s.stores t 4 else s.stores
        lock := if keep ∧ s.passcred then some t else none }
    else none
  | .store t =>
    if 0 < s.stores t then
      some { recordSenderCredentials cred s t (s.stores t) with
        stores := update s.stores t (s.stores t - 1)
        lock := if s.lock = some t ∧ s.stores t = 1 then none else s.lock }
    else none
  | .recv n peek =>
    if s.Free ∧ s.recvBuf ≠ [] then
      some (if peek then s else { s with recvBuf := s.recvBuf.drop n, scmPending := false })
    else none
  | .recvmsg n control peek =>
    if s.Free ∧ s.recvBuf ≠ [] then some (recvmsg s n control peek) else none
  | .load => s.reading.map (load s)
  | .packet t k junk => if s.kind ≠ .stream then some (enqueue cred s t k junk) else none
  | .packetmsg t k => if s.kind ≠ .stream then some (enqueue cred s t k (addr k)) else none
  | .take msg peek =>
    match s.packets with
    | [] => none
    | p :: ps => some { s with
        packets := if peek then p :: ps else ps
        lastSender := p.senderAddr
        naming := if msg then p :: s.naming else s.naming }
  | .fillMsgName p =>
    if p ∈ s.naming then some { s with naming := s.naming.erase p } else none
  | .setPeer k => some { s with peer := k }

/-- The condition on a step.  While a record is pending, a field is stored only with the value that
it has, and bytes are appended only by a sender with these credentials.  The record becomes pending
only when its fields are those of the thread, and all buffered bytes were sent with them.  The
address of a packet is not left to chance, and nothing happens to the name while a packet waits for
it. -/
def Careful (s : Sock) : Event → Bool
  | .append t _ _ => decide (s.scmPending → s.scmCred = cred t)
  | .store t =>
    match s.stores t with
    | 4 => decide (s.scmPending → (cred t).pid = s.scmCred.pid)
    | 3 => decide (s.scmPending → (cred t).uid = s.scmCred.uid)
    | 2 => decide (s.scmPending → (cred t).gid = s.scmCred.gid)
    | _ => decide (s.scmCred = cred t ∧ ∀ b ∈ s.recvBuf, cred b = cred t)
  | .packet _ k junk => decide (∀ a ∈ junk, addr k = some a)
  | .take _ _ =>
    decide (s.naming = [] ∧ ∀ p ∈ s.packets.head?, ∀ k ∈ s.peer, k = p.socket)
  | .setPeer _ => decide (s.naming = [])
  | _ => true

structure Packet.Right (p : Packet) : Prop where
  cred : ∀ c ∈ p.cred, c = cred p.thread
  addr : ∀ a ∈ p.senderAddr, addr p.socket = some a

/-- The record is right for all buffered bytes, what was loaded from it is still there, and what was
returned was right; so is every packet. -/
structure Inv (s : Sock) : Prop where
  bytes : s.scmPending → ∀ b ∈ s.recvBuf, cred b = s.scmCred
  reading : ∀ r ∈ s.reading, s.scmPending ∧ (0 < r.loads → r.cred.pid = s.scmCred.pid) ∧
    (1 < r.loads → r.cred.uid = s.scmCred.uid) ∧ (2 < r.loads → r.cred.gid = s.scmCred.gid)
  returned : ∀ c b bs, (some c, b :: bs) ∈ s.returned → c = cred b
  packets : ∀ p ∈ s.packets, p.Right cred addr
  naming : ∀ p ∈ s.naming, p.Right cred addr ∧ s.lastSender = p.senderAddr ∧
    ∀ k ∈ s.peer, k = p.socket

end Model

variable {cred : ℕ → Ucred} {addr : ℕ → Option ℕ} {s s' : Sock} {e : Event}

theorem Inv.enqueue (h : Inv cred addr s) (t k : ℕ) {a : Option ℕ}
    (ha : ∀ x ∈ a, addr k = some x) : Inv cred addr (enqueue cred s t k a) where
  __ := h
  packets p hp := by
    rcases List.mem_append.mp hp with hp | hp
    · exact h.packets p hp
    obtain rfl := List.mem_singleton.mp hp
    refine ⟨fun c hc => ?_, ha⟩
    split at hc
    · exact (Option.some.inj hc).symm
    · cases hc

theorem Inv.append (h : Inv cred addr s) {t n : ℕ} {keep : Bool}
    (hok : Careful cred addr s (.append t n keep) = true)
    (he : step cred addr s (.append t n keep) = some s') : Inv cred addr s' := by
  obtain ⟨-, rfl⟩ := guard_eq_some.mp he
  refine { h with bytes := fun hp b hb => ?_ }
  rcases List.mem_append.mp hb with hb | hb
  · exact h.bytes hp b hb
  · rw [List.eq_of_mem_replicate hb, of_decide_eq_true hok hp]

theorem Inv.field (h : Inv cred addr s) {c : Ucred} (hc : s.scmPending → c = s.scmCred) :
    Inv cred addr { s with scmCred := c } where
  __ := h
  bytes hp := hc hp ▸ h.bytes hp
  reading r hr := by
    rw [hc (h.reading r hr).1]
    exact h.reading r hr

theorem Inv.store (h : Inv cred addr s) {t : ℕ} (hok : Careful cred addr s (.store t) = true)
    (he : step cred addr s (.store t) = some s') : Inv cred addr s' := by
  obtain ⟨-, rfl⟩ := guard_eq_some.mp he
  simp only [Careful] at hok
  unfold recordSenderCredentials
  split
  · next h4 =>
    rw [h4] at hok
    exact { h.field fun hp => by rw [of_decide_eq_true hok hp] with }
  · next h3 =>
    rw [h3] at hok
    exact { h.field fun hp => by rw [of_decide_eq_true hok hp] with }
  · next h2 =>
    rw [h2] at hok
    exact { h.field fun hp => by rw [of_decide_eq_true hok hp] with }
  · next h1 =>
    rw [h1] at hok
    obtain ⟨hcred, hbytes⟩ := of_decide_eq_true hok
    refine { h with
      bytes := fun _ b hb => (hbytes b hb).trans hcred.symm, reading := fun r hr => ?_ }
    exact ⟨rfl, (h.reading r hr).2⟩
  · exact { h with }

/-- The bytes are received, with the credentials that were loaded. -/
theorem Inv.finish (h : Inv cred addr s) (n : ℕ) (peek clear : Bool) {o : Option Ucred}
    (ho : ∀ c ∈ o, s.scmPending ∧ c = s.scmCred) : Inv cred addr (finish s n peek clear o) where
  __ := h
  bytes hp b hb := by
    have hpend : s.scmPending := by
      simp only [Credentials.finish] at hp
      split at hp
      · cases hp
      · exact hp
    refine h.bytes hpend b ?_
    simp only [Credentials.finish] at hb
    split at hb
    · exact hb
    · exact List.mem_of_mem_drop hb
  reading := nofun
  returned c b bs hmem := by
    rcases List.mem_cons.mp hmem with heq | hmem
    · obtain ⟨hc, hb⟩ := Prod.mk.inj heq
      obtain ⟨hp, rfl⟩ := ho c hc.symm
      refine (h.bytes hp b (List.mem_of_mem_take (i := n) ?_)).symm
      rw [← hb]
      exact List.mem_cons_self
    · exact h.returned c b bs hmem

theorem Inv.recvmsg (h : Inv cred addr s) (n : ℕ) (control : Option Bool) (peek : Bool) :
    Inv cred addr (recvmsg s n control peek) := by
  unfold Credentials.recvmsg
  split
  · next hp =>
    refine { h with reading := fun r hr => ?_ }
    obtain rfl := Option.some.inj hr
    exact ⟨hp.1, by simp, by simp, by simp⟩
  · exact h.finish n peek _ (by simp)

theorem Inv.load (h : Inv cred addr s) {r : Reading} (hr : r ∈ s.reading) :
    Inv cred addr (load s r) := by
  obtain ⟨hp, hpid, huid, hgid⟩ := h.reading r hr
  unfold Credentials.load
  split
  · refine { h with reading := fun q hq => ?_ }
    obtain rfl := Option.some.inj hq
    exact ⟨hp, by simp⟩
  · next h1 =>
    rw [h1] at hpid
    refine { h with reading := fun q hq => ?_ }
    obtain rfl := Option.some.inj hq
    exact ⟨hp, by simpa using hpid⟩
  · next h2 =>
    rw [h2] at hpid huid
    refine { h with reading := fun q hq => ?_ }
    obtain rfl := Option.some.inj hq
    exact ⟨hp, by simpa using ⟨hpid (by decide), huid (by decide)⟩⟩
  · next h0 h1 h2 =>
    have hloads : 2 < r.loads := by
      by_contra hle
      have : r.loads = 0 ∨ r.loads = 1 ∨ r.loads = 2 := by omega
      tauto
    refine h.finish r.n r.peek true fun c hc => ⟨hp, ?_⟩
    obtain rfl := Option.some.inj hc
    exact Ucred.ext (hpid (by omega)) (huid (by omega)) (hgid hloads)

/-- **A careful step keeps the records right.** -/
theorem Inv.step (h : Inv cred addr s) (hok : Careful cred addr s e = true)
    (he : step cred addr s e = some s') : Inv cred addr s' := by
  cases e with
  | append t n keep => exact h.append hok he
  | store t => exact h.store hok he
  | recv n peek =>
    obtain ⟨⟨hfree, -⟩, rfl⟩ := guard_eq_some.mp he
    cases peek with
    | true => exact h
    | false => exact { h with bytes := nofun, reading := by simp [hfree.2.2] }
  | recvmsg n control peek =>
    obtain ⟨-, rfl⟩ := guard_eq_some.mp he
    exact h.recvmsg n control peek
  | load =>
    obtain ⟨r, hr, rfl⟩ := Option.map_eq_some_iff.mp he
    exact h.load hr
  | packet t k junk =>
    obtain ⟨-, rfl⟩ := guard_eq_some.mp he
    exact h.enqueue t k (of_decide_eq_true hok)
  | packetmsg t k =>
    obtain ⟨-, rfl⟩ := guard_eq_some.mp he
    exact h.enqueue t k fun _ ha => ha
  | take msg peek =>
    rw [step] at he
    cases hp : s.packets with
    | nil =>
      rw [hp] at he
      cases he
    | cons p ps =>
      rw [hp] at he
      cases he
      have hall := h.packets
      rw [hp] at hall
      obtain ⟨hnone, hpeer⟩ := of_decide_eq_true hok
      rw [hp] at hpeer
      refine { h with packets := fun q hq => hall q ?_, naming := fun q hq => ?_ }
      · cases peek
        · exact List.mem_cons_of_mem p hq
        · exact hq
      cases msg
      · rw [hnone] at hq
        cases hq
      · rw [hnone] at hq
        obtain rfl := List.mem_singleton.mp hq
        exact ⟨hall q List.mem_cons_self, rfl, hpeer q rfl⟩
  | fillMsgName p =>
    obtain ⟨-, rfl⟩ := guard_eq_some.mp he
    exact { h with naming := fun q hq => h.naming q (List.mem_of_mem_erase hq) }
  | setPeer k =>
    cases he
    refine { h with naming := fun q hq => ?_ }
    rw [show s.naming = [] from of_decide_eq_true hok] at hq
    cases hq

/-- **What is received is from its sender.**  The credentials that came with bytes of a stream are
those of the thread that sent the first of them; those of a packet are those of the thread that
sent it, and the name reported for it is that of its socket. -/
theorem received_from_sender {k : Kind} {es : List Event}
    (hok : Along (step cred addr) (fun s e => Careful cred addr s e = true) (fresh k) es)
    (hr : run (step cred addr) (fresh k) es = some s) :
    (∀ c b bs, (some c, b :: bs) ∈ s.returned → c = cred b) ∧
      ∀ p ∈ s.naming, (∀ c ∈ p.cred, c = cred p.thread) ∧
        ∀ a ∈ fillMsgName addr s, addr p.socket = some a := by
  have hinv : Inv cred addr s := by
    refine run_invariant (Inv cred addr) (fun _ _ _ h ho he => h.step ho he) ?_ hok hr
    exact ⟨nofun, nofun, by simp [fresh], by simp [fresh], by simp [fresh]⟩
  refine ⟨hinv.returned, fun p hp => ?_⟩
  obtain ⟨hright, hlast, hpeer⟩ := hinv.naming p hp
  refine ⟨hright.cred, fun a ha => ?_⟩
  rw [fillMsgName] at ha
  split at ha
  · next k hk => exact hpeer k hk ▸ ha
  · split at ha
    · exact hright.addr a (hlast ▸ ha)
    · cases ha

/-- The stores of a thread, and a `recvmsg` of one byte; the numbers of the thread `t` are `t`. -/
def record (t : ℕ) : List Event := List.replicate 4 (.store t)

def receive : List Event := .recvmsg 1 (some true) false :: List.replicate 4 .load

abbrev stepOf : Sock → Event → Option Sock := step (fun t => ⟨t, t, t⟩) some

def sent : List Event :=
  [.append 1 1 false] ++ record 1 ++ [.append 1 1 true] ++ record 1 ++ receive

theorem received_from_sender_sent : ∃ s c, run stepOf (fresh .stream) sent = some s ∧
    s.returned = [(some c, [1])] ∧ c = ⟨1, 1, 1⟩ := by
  refine ⟨_, _, rfl, rfl, ?_⟩
  have hok : Along stepOf (fun s e => Careful (fun t => ⟨t, t, t⟩) some s e = true)
      (fresh .stream) sent := by decide
  exact (received_from_sender hok rfl).1 _ 1 [] (List.mem_singleton.mpr rfl)

/-- **Bytes come with the credentials of another thread**, or with a mixture of two, and a packet
with another name.  Thread 2 sends before the byte of thread 1 is received, in the second run
without the lock; the socket is connected to 8 and socket 7 sends. -/
theorem received_from_other :
    (run stepOf (fresh .stream)
        ([.append 1 1 true] ++ record 1 ++ [.append 2 1 true] ++ record 2 ++ receive)).map
        Sock.returned = some [(some ⟨2, 2, 2⟩, [1])] ∧
      (run stepOf (fresh .stream)
        ([.append 1 1 false] ++ record 1 ++ [.append 2 1 false, .store 2, .store 2] ++ receive)).map
        Sock.returned = some [(some ⟨2, 2, 1⟩, [1])] ∧
      (run stepOf (fresh .dgram) [.setPeer (some 8), .packetmsg 1 7, .take true false]).map
        (fun s => (s.naming.map Packet.socket, fillMsgName some s)) = some ([7], some 8) := by
  decide

end AvoryOS.Unix.Credentials
