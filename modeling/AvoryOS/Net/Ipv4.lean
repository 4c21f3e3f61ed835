import AvoryOS.Lib.Bytes
import AvoryOS.Lib.Transition
import Mathlib.Order.Interval.Finset.Nat

/-!
# IPv4 input and reassembly

Every access to a packet, a reassembly buffer, its bitmap or the buffer of an ICMP reply is
partial here: `handleIpv4` has no result when one of them is out of bounds.  Ghost fields keep
the fragments that came in and the payloads that were handed on.

`input_in_bounds_iff` says which packets stay inside the buffers, and `delivered_received` that
a reassembled payload is what was received, while the fragments in a slot agree on the end of
the datagram.
-/

namespace AvoryOS.Ipv4

open Bytes Transition Finset

structure Buffer where
  bytes : Image
  size : ℕ

/-- A reader of `n` bytes from `o` on. -/
def Buffer.slice (b : Buffer) (o n : ℕ) : Option Buffer :=
  if o + n ≤ b.size then some ⟨fun i => b.bytes (i + o), n⟩ else none

/-- `memcpy` of a buffer to offset `o`. -/
def Buffer.put (b : Buffer) (o : ℕ) (src : Buffer) : Option Buffer :=
  if o + src.size ≤ b.size then
    some ⟨fun i => if o ≤ i ∧ i < o + src.size then src.bytes (i - o) else b.bytes i, b.size⟩
  else none

/-- Carries are added until none is left; a 32-bit sum takes three rounds at most. -/
def foldCarry : ℕ → ℕ → ℕ
  | 0, s => s
  | n + 1, s => if s / 2 ^ 16 = 0 then s else foldCarry n (s % 2 ^ 16 + s / 2 ^ 16)

def checksum (b : Buffer) (n : ℕ) : Option ℕ :=
  (b.slice 0 n).map fun s =>
    let words := ((List.range (n / 2)).map fun i => getBe s.bytes (2 * i) 2).sum
    2 ^ 16 - 1 - foldCarry 3 (words + if n % 2 = 1 then (s.bytes (n - 1)).toNat * 256 else 0)

/-! ## Messages -/

structure Key where
  src : ℕ
  dst : ℕ
  id : ℕ
  proto : ℕ
  deriving DecidableEq

structure Fragment where
  key : Key
  offset : ℕ
  payload : Buffer
  more : Bool

def Fragment.stop (f : Fragment) : ℕ := f.offset + f.payload.size

/-- A packet, and what it meets: the time, the address of the host, whether UDP has a handler,
whether memory is there, and what it holds. -/
structure Event where
  packet : Buffer
  now : ℕ
  host : ℕ
  udp : Bool
  memory : Bool
  junk : Image

/-- What `handle_ipv4` takes a packet for. -/
inductive Input
  | drop
  | fragment (f : Fragment)
  | datagram (k : Key) (seg : Buffer)

/-- The checks of `handle_ipv4` on the header. -/
def parse (p : Buffer) : Option Input :=
  if p.size < 20 then some .drop
  else (p.slice 0 20).bind fun h =>
    let headerLen := getBe h.bytes 0 1 % 16 * 4
    let total := getBe h.bytes 2 2
    if getBe h.bytes 0 1 / 16 ≠ 4 ∨ headerLen < 20 ∨ p.size < headerLen ∨ total < headerLen ∨
        p.size < total then some .drop
    else (checksum p headerLen).bind fun c =>
      if c ≠ 0 then some .drop
      else (p.slice headerLen (total - headerLen)).map fun seg =>
        let frag := getBe h.bytes 6 2
        let key : Key :=
          ⟨getBe h.bytes 12 4, getBe h.bytes 16 4, getBe h.bytes 4 2, getBe h.bytes 9 1⟩
        if frag % 2 ^ 14 ≠ 0 then
          .fragment ⟨key, frag % 2 ^ 13 * 8, seg, frag / 2 ^ 13 % 2 = 1⟩
        else .datagram key seg

/-- An echo request is answered from a buffer of 1480 bytes. -/
def handleIcmp (seg : Buffer) : Option Unit :=
  if seg.size < 8 then some ()
  else (checksum seg seg.size).bind fun c =>
    if c ≠ 0 then some ()
    else (seg.slice 0 8).bind fun echo =>
      if echo.bytes 0 ≠ 8 ∨ echo.bytes 1 ≠ 0 then some ()
      else (Buffer.put ⟨zero, 1480⟩ 0 seg).map fun _ => ()

/-- Without a handler the start of the packet goes back in an ICMP message of 32 bytes; a
reassembled datagram has no packet. -/
def handleUdp (handler : Bool) (packet : Option Buffer) (seg : Buffer) : Option Unit :=
  if seg.size < 8 then some ()
  else (seg.slice 0 6).bind fun h =>
    let len := getBe h.bytes 4 2
    if len < 8 ∨ seg.size < len ∨ handler then some ()
    else match packet with
      | none => some ()
      | some p => (p.slice 0 (min (20 + len) 28)).bind fun h =>
        (Buffer.put ⟨zero, 32⟩ 4 h).map fun _ => ()

def deliver (e : Event) (packet : Option Buffer) (k : Key) (seg : Buffer) : Option Unit :=
  if k.proto = 17 then handleUdp e.udp packet seg
  else if k.proto = 1 then handleIcmp seg
  else some ()

/-! ## Reassembly -/

/-- A datagram that is being put together: `bitmap` holds the received positions. -/
structure Reasm where
  key : Key
  totalLen : ℕ
  received : ℕ
  data : Buffer
  bitmap : Finset ℕ
  last : ℕ

/-- The bits of `n` positions from `o` on are set, in a bitmap of 8191 bytes, and the new ones
are counted. -/
def mark (o : ℕ) : ℕ → Finset ℕ × ℕ → Option (Finset ℕ × ℕ)
  | 0, s => some s
  | n + 1, s => (mark o n s).bind fun s =>
    if (o + n) / 8 < 65535 / 8 then
      some (insert (o + n) s.1, if o + n ∈ s.1 then s.2 else s.2 + 1)
    else none

def Reasm.add (r : Reasm) (now : ℕ) (f : Fragment) : Option Reasm :=
  (r.data.put f.offset f.payload).bind fun data =>
  (mark f.offset f.payload.size (r.bitmap, r.received)).map fun m =>
    ⟨r.key, if f.more then r.totalLen else f.stop, m.2, data, m.1, now⟩

abbrev Table := List (Option Reasm)

/-- Slots that are older than ten seconds are given up. -/
def expire (now : ℕ) (t : Table) : Table :=
  t.map fun o => o.filter fun r => (now + 2 ^ 64 - r.last) % 2 ^ 64 ≤ 10000

/-- `reasm_get_locked`: the slot of the datagram, or a new one. -/
def reasmGet (e : Event) (k : Key) (t : Table) : Option (ℕ × Reasm) :=
  match t.zipIdx.find? fun x => x.1.any fun r => r.key = k with
  | some (some r, i) => some (i, r)
  | _ => (t.findIdx? Option.isNone).bind fun i =>
    if e.memory then some (i, ⟨k, 0, 0, ⟨e.junk, 65535⟩, ∅, e.now⟩) else none

/-- A payload that was put together, and the address of the host at that time. -/
structure Delivery where
  key : Key
  data : Buffer
  host : ℕ

def handleFragment (e : Event) (f : Fragment) (t : Table) : Option (Table × Option Delivery) :=
  if 65535 < f.stop then some (t, none)
  else
    let t := expire e.now t
    match reasmGet e f.key t with
    | none => some (t, none)
    | some (i, r) => (r.add e.now f).bind fun r =>
      if r.totalLen ≠ 0 ∧ r.totalLen ≤ r.received then
        (r.data.slice 0 r.totalLen).bind fun seg =>
        (deliver e none r.key seg).map fun _ => (t.set i none, some ⟨r.key, seg, e.host⟩)
      else some (t.set i (some r), none)

/-- The reassembly slots, with all fragments that came in and all payloads handed on. -/
structure State where
  table : Table
  frags : List Fragment
  delivered : List Delivery

def boot : State := ⟨List.replicate 4 none, [], []⟩

def handleIpv4 (s : State) (e : Event) : Option State :=
  (parse e.packet).bind fun
  | .drop => some s
  | .fragment f => (handleFragment e f s.table).map fun r =>
    ⟨r.1, f :: s.frags, r.2.toList ++ s.delivered⟩
  | .datagram k seg =>
    if k.dst ≠ e.host ∧ k.dst ≠ 2 ^ 32 - 1 then some s
    else (deliver e (some e.packet) k seg).map fun _ => s

variable {frags : List Fragment} {f : Fragment} {r r' : Reasm} {e : Event} {s s' : State}
  {b seg : Buffer} {o n : ℕ} {packet : Option Buffer}

theorem handleIpv4_cases (h : handleIpv4 s e = some s') : s' = s ∨
    ∃ f x, parse e.packet = some (.fragment f) ∧ handleFragment e f s.table = some x ∧
      s' = ⟨x.1, f :: s.frags, x.2.toList ++ s.delivered⟩ := by
  simp only [handleIpv4, Option.bind_eq_some_iff] at h
  obtain ⟨x, hx, h⟩ := h
  cases x with
  | drop => exact .inl (Option.some.inj h).symm
  | fragment f =>
    obtain ⟨y, hy, rfl⟩ := Option.map_eq_some_iff.mp h
    exact .inr ⟨f, y, hx, hy, rfl⟩
  | datagram k seg =>
    dsimp only at h
    split_ifs at h
    · exact .inl (Option.some.inj h).symm
    · obtain ⟨-, -, rfl⟩ := Option.map_eq_some_iff.mp h
      exact .inl rfl

/-! ## What a slot holds -/

/-- The fragment has the byte `v` at position `b` of its datagram. -/
def Fragment.Has (f : Fragment) (b : ℕ) (v : UInt8) : Prop :=
  f.offset ≤ b ∧ b < f.stop ∧ f.payload.bytes (b - f.offset) = v

/-- What has been received of a datagram: the marked positions hold bytes of its fragments, and
its length is the end of a last one. -/
structure Held (frags : List Fragment) (r : Reasm) : Prop where
  size : r.data.size = 65535
  total : r.totalLen ≤ 65535
  count : r.received = r.bitmap.card
  held : ∀ b ∈ r.bitmap, ∃ f ∈ frags, f.key = r.key ∧ f.Has b (r.data.bytes b)
  stop : r.totalLen ≠ 0 → ∃ f ∈ frags, f.key = r.key ∧ f.more = false ∧ f.stop = r.totalLen

theorem mark_spec {m m' : Finset ℕ × ℕ} (h : mark o n m = some m') (hc : m.2 = m.1.card) :
    (∀ b, b ∈ m'.1 ↔ b ∈ m.1 ∨ o ≤ b ∧ b < o + n) ∧ m'.2 = m'.1.card := by
  induction n generalizing m' with
  | zero =>
    cases h
    exact ⟨fun b => (or_iff_left (by omega)).symm, hc⟩
  | succ n ih =>
    simp only [mark, Option.bind_eq_some_iff, guard_eq_some] at h
    obtain ⟨x, hx, -, rfl⟩ := h
    obtain ⟨hmem, hcard⟩ := ih hx
    refine ⟨fun b => ?_, ?_⟩
    · rw [mem_insert, hmem, or_left_comm]
      exact or_congr_right (by omega)
    · by_cases hb : o + n ∈ x.1 <;> simp [hb, hcard]

/-- The length of the datagram once the fragment is in its slot. -/
def Reasm.totalWith (r : Reasm) (f : Fragment) : ℕ := if f.more then r.totalLen else f.stop

/-- The received positions once the fragment is in its slot. -/
def Reasm.bitmapWith (r : Reasm) (f : Fragment) : Finset ℕ := r.bitmap ∪ Ico f.offset f.stop

/-- The bytes once the fragment is in its slot. -/
def Reasm.bytesWith (r : Reasm) (f : Fragment) : Image := fun i =>
  if f.offset ≤ i ∧ i < f.stop then f.payload.bytes (i - f.offset) else r.data.bytes i

/-- A fragment is copied in: its own positions are new, the others stay. -/
theorem add_eq {now : ℕ} (hc : r.received = r.bitmap.card) (ha : r.add now f = some r') :
    r' = ⟨r.key, r.totalWith f, (r.bitmapWith f).card, ⟨r.bytesWith f, r.data.size⟩,
      r.bitmapWith f, now⟩ := by
  simp only [Reasm.add, Option.bind_eq_some_iff, Option.map_eq_some_iff, Buffer.put,
    guard_eq_some] at ha
  obtain ⟨data, ⟨-, rfl⟩, m, hm, rfl⟩ := ha
  obtain ⟨hmem, hcard⟩ := mark_spec hm hc
  have hm : m.1 = r.bitmapWith f := by
    ext b
    rw [hmem, Reasm.bitmapWith, mem_union, mem_Ico, Fragment.stop]
  rw [hcard, hm]
  rfl

theorem Held.mono (h : Held frags r) : Held (f :: frags) r where
  __ := h
  held b hb := (h.held b hb).imp fun _ hg => ⟨.tail _ hg.1, hg.2⟩
  stop hne := (h.stop hne).imp fun _ hg => ⟨.tail _ hg.1, hg.2⟩

theorem Held.add {now : ℕ} (h : Held frags r) (hk : f.key = r.key) (hs : f.stop ≤ 65535)
    (ha : r.add now f = some r') : Held (f :: frags) r' := by
  rw [add_eq h.count ha]
  refine ⟨h.size, ?_, rfl, fun b hb => ?_, fun hne => ?_⟩
  · dsimp only [Reasm.totalWith]
    split_ifs
    exacts [h.total, hs]
  · dsimp only [Reasm.bytesWith]
    by_cases hin : f.offset ≤ b ∧ b < f.stop
    · exact ⟨f, .head _, hk, hin.1, hin.2, (if_pos hin).symm⟩
    · have hold := (mem_union.mp hb).resolve_right (mt mem_Ico.mp hin)
      obtain ⟨g, hg, hgk, hgb⟩ := h.held b hold
      exact ⟨g, .tail _ hg, hgk, by rwa [if_neg hin]⟩
  · dsimp only [Reasm.totalWith] at hne ⊢
    split_ifs at hne ⊢ with hmore
    · exact h.mono.stop hne
    · exact ⟨f, .head _, hk, by simpa using hmore, rfl⟩

def Inv (s : State) : Prop := ∀ r, some r ∈ s.table → Held s.frags r

theorem mem_expire {t : Table} (h : some r ∈ expire e.now t) : some r ∈ t := by
  simp only [expire, List.mem_map, Option.filter_eq_some_iff] at h
  obtain ⟨o, ho, rfl, -⟩ := h
  exact ho

/-- The slot that a fragment goes to, if it gets one. -/
def slotFor (s : State) (e : Event) (f : Fragment) : Option (ℕ × Reasm) :=
  if f.stop ≤ 65535 then reasmGet e f.key (expire e.now s.table) else none

theorem stop_of_slotFor {i : ℕ} (h : slotFor s e f = some (i, r)) : f.stop ≤ 65535 := by
  rw [slotFor] at h
  split_ifs at h
  assumption

theorem slotFor_cases {i : ℕ} (hg : slotFor s e f = some (i, r)) :
    f.key = r.key ∧ (some r ∈ s.table ∨ r = ⟨f.key, 0, 0, ⟨e.junk, 65535⟩, ∅, e.now⟩) := by
  rw [slotFor, if_pos (stop_of_slotFor hg), reasmGet] at hg
  split at hg
  · rename_i r0 i0 hfind
    cases hg
    have hk := List.find?_some hfind
    have hmem := List.fst_mem_of_mem_zipIdx (List.mem_of_find?_eq_some hfind)
    exact ⟨.symm (by simpa using hk), .inl (mem_expire hmem)⟩
  · simp only [Option.bind_eq_some_iff, guard_eq_some] at hg
    obtain ⟨j, -, -, hg⟩ := hg
    cases hg
    exact ⟨rfl, .inr rfl⟩

theorem Inv.slot (h : Inv s) {i : ℕ} (hg : slotFor s e f = some (i, r)) :
    f.key = r.key ∧ Held s.frags r := by
  obtain ⟨hk, hr | rfl⟩ := slotFor_cases hg
  · exact ⟨hk, h r hr⟩
  · exact ⟨rfl, rfl, Nat.zero_le _, rfl, by simp, by simp⟩

theorem handleFragment_cases {x : Table × Option Delivery}
    (hx : handleFragment e f s.table = some x) :
    (∀ r', some r' ∈ x.1 → some r' ∈ s.table ∨
        ∃ i r, slotFor s e f = some (i, r) ∧ r.add e.now f = some r') ∧
      ∀ d ∈ x.2, ∃ i r r', slotFor s e f = some (i, r) ∧ r.add e.now f = some r' ∧
        d = ⟨r'.key, ⟨r'.data.bytes, r'.totalLen⟩, e.host⟩ ∧ r'.totalLen ≠ 0 ∧
          r'.totalLen ≤ r'.received := by
  rw [handleFragment] at hx
  split_ifs at hx with hstop
  · cases hx
    exact ⟨fun r hr => .inl hr, by simp⟩
  rw [slotFor, if_pos (Nat.not_lt.mp hstop)]
  dsimp only at hx
  split at hx
  · cases hx
    exact ⟨fun r hr => .inl (mem_expire hr), by simp⟩
  rename_i i r hg
  obtain ⟨r', ha, hx⟩ := Option.bind_eq_some_iff.mp hx
  have hset : ∀ {o q}, some q ∈ (expire e.now s.table).set i o → some q ∈ s.table ∨ some q = o :=
    fun hq => (List.mem_or_eq_of_mem_set hq).imp_left mem_expire
  split_ifs at hx with hdone
  · simp only [Option.bind_eq_some_iff, Option.map_eq_some_iff, Buffer.slice, guard_eq_some] at hx
    obtain ⟨seg, ⟨-, rfl⟩, -, -, rfl⟩ := hx
    refine ⟨fun q hq => .inl ((hset hq).resolve_right (by simp)), fun d hd => ?_⟩
    cases hd
    exact ⟨i, r, r', hg, ha, rfl, hdone⟩
  · cases hx
    refine ⟨fun q hq => (hset hq).imp_right fun he => ?_, by simp⟩
    cases he
    exact ⟨i, r, hg, ha⟩

theorem Inv.add (h : Inv s) {i : ℕ} (hg : slotFor s e f = some (i, r))
    (ha : r.add e.now f = some r') : Held (f :: s.frags) r' :=
  (h.slot hg).2.add (h.slot hg).1 (stop_of_slotFor hg) ha

theorem Inv.step (h : Inv s) (hs : handleIpv4 s e = some s') : Inv s' := by
  obtain rfl | ⟨f, x, -, hx, rfl⟩ := handleIpv4_cases hs
  · exact h
  intro r hr
  obtain hr | ⟨i, q, hg, ha⟩ := (handleFragment_cases hx).1 r hr
  · exact (h r hr).mono
  · exact h.add hg ha

theorem Inv.boot : Inv boot := fun r h => by simp [Ipv4.boot] at h

/-! ## Bounds -/

theorem slice_eq (h : o + n ≤ b.size) : b.slice o n = some ⟨fun i => b.bytes (i + o), n⟩ :=
  if_pos h

theorem checksum_eq (h : n ≤ b.size) : ∃ c, checksum b n = some c :=
  ⟨_, by rw [checksum, slice_eq (by omega), Option.map_some]⟩

theorem mark_isSome (o n : ℕ) (s : Finset ℕ × ℕ) : (mark o n s).isSome ↔ n = 0 ∨ o + n ≤ 65528 := by
  induction n with
  | zero => simp [mark]
  | succ n ih => cases h : mark o n s <;> simp [mark, h] at ih ⊢ <;> omega

theorem parse_eq_some (p : Buffer) :
    ∃ x, parse p = some x ∧ ∀ k seg, x = .datagram k seg → 20 + seg.size ≤ p.size := by
  rw [parse]
  split_ifs with h20
  · simp
  rw [slice_eq (by omega), Option.bind_some]
  dsimp only
  split
  · simp
  obtain ⟨c, hc⟩ := checksum_eq (b := p) (n := getBe (fun i => p.bytes (i + 0)) 0 1 % 16 * 4)
    (by omega)
  rw [hc, Option.bind_some]
  split_ifs
  · simp
  · rw [slice_eq (by omega)]
    simp
  · rw [slice_eq (by omega)]
    refine ⟨_, rfl, fun k seg h => ?_⟩
    cases h
    dsimp only
    omega

def IsEcho (seg : Buffer) : Prop :=
  8 ≤ seg.size ∧ checksum seg seg.size = some 0 ∧ seg.bytes 0 = 8 ∧ seg.bytes 1 = 0

def Answerable (k : Key) (seg : Buffer) : Prop := k.proto = 1 → IsEcho seg → seg.size ≤ 1480

theorem handleIcmp_isSome : (handleIcmp seg).isSome ↔ (IsEcho seg → seg.size ≤ 1480) := by
  rw [handleIcmp, IsEcho]
  split_ifs with h8
  · simp; omega
  obtain ⟨c, hc⟩ := checksum_eq (le_refl seg.size)
  rw [hc, slice_eq (by omega)]
  simp only [Option.bind_some, Buffer.put]
  split_ifs with hc hecho hroom
  · simp [hc]
  · exact iff_of_true rfl fun h => absurd h.2.2 (by simp_all)
  · simp_all
  · simp_all

theorem handleUdp_isSome (handler : Bool) (hp : ∀ p ∈ packet, 20 + seg.size ≤ p.size) :
    (handleUdp handler packet seg).isSome := by
  rw [handleUdp]
  split_ifs with h8
  · rfl
  rw [slice_eq (by omega), Option.bind_some]
  dsimp only
  split_ifs
  · rfl
  cases packet with
  | none => rfl
  | some p =>
    have := hp p rfl
    dsimp only
    rw [slice_eq (by omega), Option.bind_some, Buffer.put, if_pos (by simp; omega)]
    rfl

theorem deliver_isSome (e : Event) (k : Key) (hp : ∀ p ∈ packet, 20 + seg.size ≤ p.size) :
    (deliver e packet k seg).isSome ↔ Answerable k seg := by
  rw [deliver, Answerable]
  split_ifs with h17 h1
  · simp [handleUdp_isSome e.udp hp, h17]
  · simp [handleIcmp_isSome, h1]
  · simp [h1]

/-- No fragment reaches the positions that the bitmap lacks, and answers have room. -/
def Fits (s : State) (e : Event) : Prop :=
  match parse e.packet with
  | some (.fragment f) => ∀ i r, slotFor s e f = some (i, r) →
      (f.payload.size = 0 ∨ f.stop ≤ 65528) ∧
        (r.totalWith f ≠ 0 ∧ r.totalWith f ≤ (r.bitmapWith f).card →
          Answerable r.key ⟨r.bytesWith f, r.totalWith f⟩)
  | some (.datagram k seg) => k.dst = e.host ∨ k.dst = 2 ^ 32 - 1 → Answerable k seg
  | _ => True

/-- A packet is handled inside the buffers exactly when it fits. -/
theorem Inv.isSome_iff (h : Inv s) : (handleIpv4 s e).isSome ↔ Fits s e := by
  obtain ⟨x, hx, hp⟩ := parse_eq_some e.packet
  rw [handleIpv4, Fits, hx, Option.bind_some]
  cases x with
  | drop => simp
  | datagram k seg =>
    have hdel : (deliver e (some e.packet) k seg).isSome ↔ Answerable k seg :=
      deliver_isSome e k (by simpa using hp)
    dsimp only
    split_ifs with hdst
    · simp; tauto
    · simp [hdel]; tauto
  | fragment f =>
    rw [Option.isSome_map, handleFragment]
    dsimp only
    split_ifs with hstop
    · simp [slotFor, Nat.not_le.mpr hstop]
    have hslot : slotFor s e f = reasmGet e f.key (expire e.now s.table) :=
      if_pos (Nat.not_lt.mp hstop)
    rw [← hslot]
    cases hg : slotFor s e f with
    | none => simp
    | some y =>
      obtain ⟨i, r⟩ := y
      have hr := (h.slot hg).2
      have hadd : (r.add e.now f).isSome ↔ f.payload.size = 0 ∨ f.stop ≤ 65528 := by
        rw [Reasm.add, Buffer.put, if_pos (by rw [hr.size]; exact Nat.not_lt.mp hstop)]
        simp [mark_isSome, Fragment.stop]
      cases ha : r.add e.now f with
      | none => simp [ha, ← hadd]
      | some r' =>
        have hr' := h.add hg ha
        have hslice := slice_eq (b := r'.data) (o := 0) (n := r'.totalLen)
          (by have := hr'.size; have := hr'.total; omega)
        have hdel : (deliver e none r'.key ⟨r'.data.bytes, r'.totalLen⟩).isSome ↔ _ :=
          deliver_isSome e r'.key (by simp)
        have he := add_eq hr.count ha
        simp [ha]
        split_ifs <;> simp_all

/-- **Which packets are handled inside the buffers.** -/
theorem input_in_bounds_iff (es : List Event) :
    (run handleIpv4 boot es).isSome ↔ Along handleIpv4 Fits boot es :=
  run_isSome_iff Inv (fun _ _ _ => Inv.step) (fun _ _ => Inv.isSome_iff) Inv.boot

/-- A UDP packet from 10.0.2.2 to 10.0.2.15. -/
def udpPacket (frag sum : ℕ) (payload : List UInt8) : Event :=
  let bytes := [0x45, 0, 0, .ofNat (20 + payload.length), 0, 1, .ofNat (frag / 256), .ofNat frag,
    64, 17, .ofNat (sum / 256), .ofNat sum, 10, 0, 2, 2, 10, 0, 2, 15] ++ payload
  ⟨⟨fun i => bytes.getD i 0, bytes.length⟩, 0, 0x0a00020f, true, true, zero⟩

/-- One byte at offset 65528: the bitmap has 8191 bytes, and the last seven positions no bit. -/
theorem bitmap_too_short : run handleIpv4 boot [udpPacket 0x1fff 0x42c8 [7]] = none := by
  decide +kernel

/-! ## Reassembled payloads -/

/-- The fragment and what its slot has received agree on the end of the datagram. -/
def Agree (r : Reasm) (f : Fragment) : Prop :=
  (f.more = false → ∀ b ∈ r.bitmap, b < f.stop) ∧ (r.totalLen ≠ 0 → f.stop ≤ r.totalLen)

/-- The datagram is for this host, and the fragment agrees with its slot. -/
def Whole (s : State) (e : Event) : Prop :=
  match parse e.packet with
  | some (.fragment f) => (f.key.dst = e.host ∨ f.key.dst = 2 ^ 32 - 1) ∧
      ∀ x ∈ slotFor s e f, Agree x.2 f
  | _ => True

/-- Every byte of the payload was received in a fragment of the datagram, the payload ends where
a last fragment does, and the datagram was for this host. -/
structure Genuine (frags : List Fragment) (d : Delivery) : Prop where
  bytes : ∀ i < d.data.size, ∃ f ∈ frags, f.key = d.key ∧ f.Has i (d.data.bytes i)
  stop : ∃ f ∈ frags, f.key = d.key ∧ f.more = false ∧ f.stop = d.data.size
  dst : d.key.dst = d.host ∨ d.key.dst = 2 ^ 32 - 1

/-- No position from the end of the datagram on was received. -/
def Bounded (r : Reasm) : Prop := r.totalLen ≠ 0 → ∀ b ∈ r.bitmap, b < r.totalLen

/-- As many positions are marked as the datagram has, and no others: all of them are. -/
theorem Held.mem (h : Held frags r) (hb : Bounded r) (hne : r.totalLen ≠ 0)
    (hle : r.totalLen ≤ r.received) {i : ℕ} (hi : i < r.totalLen) : i ∈ r.bitmap := by
  have hsub : r.bitmap ⊆ range r.totalLen := fun b hm => mem_range.mpr (hb hne b hm)
  rw [eq_of_subset_of_card_le hsub (by rw [card_range, ← h.count]; exact hle)]
  exact mem_range.mpr hi

theorem Bounded.add {now : ℕ} (hc : r.received = r.bitmap.card) (h : Bounded r) (ha : Agree r f)
    (hr : r.add now f = some r') : Bounded r' := by
  rw [add_eq hc hr]
  intro hne b hb
  dsimp only [Reasm.totalWith] at hne ⊢
  obtain hb | hb := mem_union.mp hb
  · split_ifs at hne ⊢ with hmore
    exacts [h hne b hb, ha.1 (by simpa using hmore) b hb]
  · have hlt := (mem_Ico.mp hb).2
    split_ifs at hne ⊢
    exacts [hlt.trans_le (ha.2 hne), hlt]

/-- What holds of the slots and of the payloads handed on, while the fragments agree. -/
structure Received (s : State) : Prop where
  inv : Inv s
  bounded : ∀ r, some r ∈ s.table → Bounded r
  genuine : ∀ d ∈ s.delivered, Genuine s.frags d

theorem Received.step (h : Received s) (hw : Whole s e) (hs : handleIpv4 s e = some s') :
    Received s' := by
  have hinv := h.inv.step hs
  obtain rfl | ⟨f, x, hf, hx, rfl⟩ := handleIpv4_cases hs
  · exact h
  rw [Whole, hf] at hw
  have hadd : ∀ {i r r'}, slotFor s e f = some (i, r) → r.add e.now f = some r' → Bounded r' := by
    intro i r r' hg ha
    refine .add (h.inv.slot hg).2.count ?_ (hw.2 _ hg) ha
    obtain ⟨-, hr | rfl⟩ := slotFor_cases hg
    exacts [h.bounded r hr, fun hne => absurd rfl hne]
  obtain ⟨hkept, hnew⟩ := handleFragment_cases hx
  refine ⟨hinv, fun r hr => ?_, fun d hd => ?_⟩
  · obtain hr | ⟨i, q, hg, ha⟩ := hkept r hr
    exacts [h.bounded r hr, hadd hg ha]
  rcases List.mem_append.mp hd with hd | hd
  · obtain ⟨i, q, r, hg, ha, rfl, hne, hle⟩ := hnew d (by simpa using hd)
    have hr := h.inv.add hg ha
    refine ⟨fun i hi => hr.held i (hr.mem (hadd hg ha) hne hle hi), hr.stop hne, ?_⟩
    have hq := h.inv.slot hg
    rw [add_eq hq.2.count ha]
    exact hq.1 ▸ hw.1
  · have := h.genuine d hd
    exact ⟨fun i hi => (this.bytes i hi).imp fun _ hg => ⟨.tail _ hg.1, hg.2⟩,
      this.stop.imp fun _ hg => ⟨.tail _ hg.1, hg.2⟩, this.dst⟩

/-- **A reassembled payload was received.** -/
theorem delivered_received {es : List Event} (hw : Along handleIpv4 Whole boot es)
    (hr : run handleIpv4 boot es = some s) : ∀ d ∈ s.delivered, Genuine s.frags d :=
  (run_invariant Received (fun _ _ _ h hw hs => h.step hw hs)
    ⟨.boot, fun r h => by simp [boot] at h, by simp [boot]⟩ hw hr).genuine

instance (s : State) (e : Event) : Decidable (Whole s e) := by
  unfold Whole Agree
  split <;> infer_instance

/-- Two fragments of a datagram of nine bytes. -/
theorem delivered_received_two : ∃ s, ∃ d ∈ s.delivered, run handleIpv4 boot
    [udpPacket 0x2000 0x42c0 [1, 2, 3, 4, 0, 9, 7, 8], udpPacket 1 0x62c6 [5]] = some s ∧
      d.data.size = 9 ∧ Genuine s.frags d := by
  have hd : (run handleIpv4 boot [udpPacket 0x2000 0x42c0 [1, 2, 3, 4, 0, 9, 7, 8],
      udpPacket 1 0x62c6 [5]]).map (·.delivered.map (·.data.size)) = some [9] := by decide +kernel
  obtain ⟨s, hs, hd⟩ := Option.map_eq_some_iff.mp hd
  obtain ⟨d, hmem, h9⟩ := List.mem_map.mp (hd ▸ List.mem_singleton_self 9)
  exact ⟨s, d, hmem, hs, h9, delivered_received (by decide +kernel) hs d hmem⟩

/-- Eight bytes from position 8 on, and an empty last fragment at 8: the eight bytes that are
handed on no fragment had. -/
theorem delivered_unreceived : ∃ s, ∃ d ∈ s.delivered, run handleIpv4 boot
    [udpPacket 0x2001 0x42bf [1, 2, 3, 4, 5, 6, 7, 8], udpPacket 1 0x62c7 []] = some s ∧
      d.data.size = 8 ∧ ∀ f ∈ s.frags, ∀ i < 8, ∀ v, ¬f.Has i v := by
  have hd : (run handleIpv4 boot [udpPacket 0x2001 0x42bf [1, 2, 3, 4, 5, 6, 7, 8],
      udpPacket 1 0x62c7 []]).map (fun s => (s.delivered.map (·.data.size), s.frags.map (·.offset)))
        = some ([8], [8, 8]) := by decide +kernel
  obtain ⟨s, hs, hd⟩ := Option.map_eq_some_iff.mp hd
  rw [Prod.mk.injEq] at hd
  obtain ⟨d, hmem, h8⟩ := List.mem_map.mp (hd.1 ▸ List.mem_singleton_self 8)
  refine ⟨s, d, hmem, hs, h8, fun f hf i hi v hv => ?_⟩
  have hoff : f.offset ∈ s.frags.map (·.offset) := List.mem_map_of_mem hf
  rw [hd.2] at hoff
  have := hv.1
  simp at hoff
  omega

end AvoryOS.Ipv4
