import Mathlib.Data.UInt
import Mixnet.BitSmear
import Mixnet.TicketUse

/-! The message queue that two threads of a fragment share. A message is written into a block that
`message_queue_message_alloc` took from the freelist; the queue holds the addresses of the blocks
that wait for the reader, which gives each block back to the freelist. -/
namespace Mixnet.Itc
open BitSmear TicketRing

section Init

/-- `sizeof(union padding)` is 8. -/
def padSize (size : ℕ) : ℕ := if size % 8 ≠ 0 then size + (8 - size % 8) else size

def roundToPow2 (x : UInt32) : UInt32 :=
  let x := x - 1
  let x := x ||| x >>> 1
  let x := x ||| x >>> 2
  let x := x ||| x >>> 4
  let x := x ||| x >>> 8
  let x := x ||| x >>> 16
  x + 1

theorem le_padSize (size : ℕ) : size ≤ padSize size := by
  rw [padSize]
  split_ifs <;> omega

theorem smear_step {n y : ℕ} {x w : UInt32} (hw : w.toNat = n) (hn : n < 32)
    (h : Smeared n y x.toNat) : Smeared (2 * n) y (x ||| x >>> w).toNat := by
  rw [UInt32.toNat_or, UInt32.toNat_shiftRight, hw, Nat.mod_eq_of_lt hn]
  exact h.double

/-- The least power of two that is not below `x`. -/
theorem roundToPow2_toNat {x : UInt32} (hpos : 0 < x) (hle : x.toNat ≤ 2147483648) :
    (roundToPow2 x).toNat = 2 ^ Nat.clog 2 x.toNat := by
  have hx : 1 ≤ x.toNat := UInt32.lt_iff_toNat_lt.mp hpos
  have hy : (x - 1).toNat = x.toNat - 1 :=
    UInt32.toNat_sub_of_le x 1 (UInt32.le_iff_toNat_le.mpr hx)
  have h1 : Smeared 1 (x.toNat - 1) (x - 1).toNat := hy ▸ smeared_self _
  have h2 := smear_step (n := 1) (w := 1) rfl (by decide) h1
  have h4 := smear_step (n := 2) (w := 2) rfl (by decide) h2
  have h8 := smear_step (n := 4) (w := 4) rfl (by decide) h4
  have h16 := smear_step (n := 8) (w := 8) rfl (by decide) h8
  have h32 := smear_step (n := 16) (w := 16) rfl (by decide) h16
  have hbound : x.toNat - 1 < 2 ^ (2 * 16) := by omega
  have hones := h32.succ_eq hbound
  rw [Nat.sub_add_cancel hx] at hones
  have hclog : Nat.clog 2 x.toNat ≤ 31 := Nat.clog_le_of_le_pow hle
  have hpow : 2 ^ Nat.clog 2 x.toNat ≤ 2 ^ 31 := Nat.pow_le_pow_right (by decide) hclog
  rw [roundToPow2, UInt32.toNat_add, UInt32.toNat_one, hones, Nat.mod_eq_of_lt]
  omega

theorem roundToPow2_hundred : (roundToPow2 100).toNat = 2 ^ Nat.clog 2 (100 : UInt32).toNat :=
  roundToPow2_toNat (by decide) (by decide)

/-- The arguments of `message_queue_init`, and the address of the memory that it gets. The blocks
take less than 4 GiB, and their number fits in an int. -/
structure Setup where
  messageSize : ℕ
  maxDepth : UInt32
  memory : ℕ
  messageSize_pos : 0 < messageSize
  maxDepth_pos : 0 < maxDepth
  memory_pos : 0 < memory
  maxDepth_le : maxDepth.toNat ≤ 1073741824
  blocks_lt : padSize messageSize * (roundToPow2 maxDepth).toNat < 4294967296

def Setup.depth (setup : Setup) : ℕ := (roundToPow2 setup.maxDepth).toNat

/-- The padded size is an unsigned int, and so are its products. -/
def Setup.size (setup : Setup) : UInt32 := UInt32.ofNat (padSize setup.messageSize)

def Setup.memorySize (setup : Setup) : ℕ := (setup.size * roundToPow2 setup.maxDepth).toNat

def Setup.block (setup : Setup) (i : ℕ) : ℕ := setup.memory + (setup.size * UInt32.ofNat i).toNat

def Setup.blocks (setup : Setup) : List ℕ := (List.range setup.depth).map setup.block

theorem Setup.depth_eq (setup : Setup) : setup.depth = 2 ^ Nat.clog 2 setup.maxDepth.toNat :=
  roundToPow2_toNat setup.maxDepth_pos (setup.maxDepth_le.trans (by decide))

theorem Setup.depth_pos (setup : Setup) : 0 < setup.depth :=
  setup.depth_eq ▸ Nat.two_pow_pos _

theorem Setup.mul_lt (setup : Setup) {i : ℕ} (hi : i ≤ setup.depth) :
    padSize setup.messageSize * i < 4294967296 :=
  lt_of_le_of_lt (Nat.mul_le_mul_left _ hi) setup.blocks_lt

theorem Setup.size_toNat (setup : Setup) : setup.size.toNat = padSize setup.messageSize := by
  have hlt := setup.mul_lt (i := 1) setup.depth_pos
  rw [Nat.mul_one] at hlt
  exact UInt32.toNat_ofNat_of_lt' hlt

theorem Setup.block_eq (setup : Setup) {i : ℕ} (hi : i < setup.depth) :
    setup.block i = setup.memory + padSize setup.messageSize * i := by
  have hdepth : setup.depth < 4294967296 := (roundToPow2 setup.maxDepth).toNat_lt
  have hnat : (UInt32.ofNat i).toNat = i := UInt32.toNat_ofNat_of_lt' (hi.trans hdepth)
  rw [Setup.block, UInt32.toNat_mul, setup.size_toNat, hnat, Nat.mod_eq_of_lt (setup.mul_lt hi.le)]

theorem Setup.memorySize_eq (setup : Setup) :
    setup.memorySize = padSize setup.messageSize * setup.depth := by
  rw [Setup.memorySize, UInt32.toNat_mul, setup.size_toNat]
  exact Nat.mod_eq_of_lt setup.blocks_lt

theorem Setup.depth_dvd (setup : Setup) : setup.depth ∣ 4294967296 := by
  have hclog : Nat.clog 2 setup.maxDepth.toNat ≤ 32 :=
    (Nat.clog_le_of_le_pow (y := 30) setup.maxDepth_le).trans (by decide)
  rw [setup.depth_eq]
  exact Nat.pow_dvd_pow 2 hclog

/-- A slot is `pos % max_depth`, with counters of 32 bits. -/
def Setup.indexing (setup : Setup) : Indexing UInt32 where
  depth := setup.depth
  pos := setup.depth_pos
  slot := fun pos => (pos % roundToPow2 setup.maxDepth).toNat
  slot_zero := by rw [UInt32.toNat_mod, UInt32.toNat_zero, Nat.zero_mod]
  slot_succ := by
    intro pos
    change _ = (_ + 1) % (roundToPow2 setup.maxDepth).toNat
    rw [UInt32.toNat_mod, UInt32.toNat_mod, UInt32.toNat_add, UInt32.toNat_one, Nat.mod_add_mod]
    exact Nat.mod_mod_of_dvd _ setup.depth_dvd

theorem Setup.length_blocks (setup : Setup) : setup.blocks.length = setup.depth := by
  rw [Setup.blocks, List.length_map, List.length_range]

theorem Setup.block_apart (setup : Setup) {i j : ℕ} (h : i < j) (hj : j < setup.depth) :
    setup.block i + setup.messageSize ≤ setup.block j := by
  have hsize := le_padSize setup.messageSize
  rw [setup.block_eq (h.trans hj), setup.block_eq hj]
  calc setup.memory + padSize setup.messageSize * i + setup.messageSize
      ≤ setup.memory + padSize setup.messageSize * i + padSize setup.messageSize :=
        Nat.add_le_add_left hsize _
    _ = setup.memory + padSize setup.messageSize * (i + 1) := by rw [Nat.mul_add_one, Nat.add_assoc]
    _ ≤ setup.memory + padSize setup.messageSize * j :=
        Nat.add_le_add_left (Nat.mul_le_mul_left _ h) _

theorem Setup.block_le (setup : Setup) {i : ℕ} (hi : i < setup.depth) :
    setup.block i + setup.messageSize ≤ setup.memory + setup.memorySize := by
  have hsize := le_padSize setup.messageSize
  rw [setup.block_eq hi, setup.memorySize_eq]
  calc setup.memory + padSize setup.messageSize * i + setup.messageSize
      ≤ setup.memory + padSize setup.messageSize * i + padSize setup.messageSize :=
        Nat.add_le_add_left hsize _
    _ = setup.memory + padSize setup.messageSize * (i + 1) := by rw [Nat.mul_add_one, Nat.add_assoc]
    _ ≤ setup.memory + padSize setup.messageSize * setup.depth :=
        Nat.add_le_add_left (Nat.mul_le_mul_left _ hi) _

theorem Setup.nodup_blocks (setup : Setup) : setup.blocks.Nodup := by
  refine List.Nodup.map_on (fun i hi j hj hij => ?_) List.nodup_range
  have hsize := setup.messageSize_pos
  obtain hlt | heq | hlt := Nat.lt_trichotomy i j
  · have hapart := setup.block_apart hlt (List.mem_range.mp hj)
    omega
  · exact heq
  · have hapart := setup.block_apart hlt (List.mem_range.mp hi)
    omega

/-- A fragment's two queues hold pointers to packets. -/
def mqSetup (memory : ℕ) (hmemory : 0 < memory := by decide) : Setup where
  messageSize := 8
  maxDepth := 128
  memory := memory
  messageSize_pos := by decide
  maxDepth_pos := by decide
  memory_pos := hmemory
  maxDepth_le := by decide
  blocks_lt := by decide

end Init

section Threads
variable {T V : Type*}

/-- Two rings of block addresses: the freelist and the queue itself. -/
structure MessageQueue (T : Type*) where
  allocator : State T UInt32 ℕ
  queue : State T UInt32 ℕ

def messageQueueInit (setup : Setup) : MessageQueue T where
  allocator := State.holding setup.blocks
  queue := State.holding []

/-- What a thread is doing. A sender allocates a block, writes its value into it and writes the
block to the queue; the reader reads a block, takes the value out of it and frees it. -/
inductive Task (V : Type*) where
  | idle
  | allocating (v : V)
  | filling (message : ℕ) (v : V)
  | filled (message : ℕ) (v : V)
  | writing (v : V)
  | reading
  | loading (message : ℕ)
  | loaded (message : ℕ)
  | freeing
deriving DecidableEq

def Task.allocated (v : V) : Option ℕ → Task V
  | some message => .filling message v
  | none => .idle

def Task.gotten : Option ℕ → Task V
  | some message => .loading message
  | none => .idle

/-- The threads that use a message queue. `sent` lists what was written, by the tickets of the
queue, and `received` what the reader has taken out of its blocks. -/
structure System (T V : Type*) extends MessageQueue T where
  contents : ℕ → V
  task : T → Task V
  sent : List V
  received : List V

inductive Event (T V : Type*) where
  | send (t : T) (v : V)
  | read (t : T)
  | tryread (t : T)
  | turn (t : T)

variable [DecidableEq T]

def messageAlloc (allocator : State T UInt32 ℕ) (t : T) : Option (State T UInt32 ℕ) :=
  allocator.call t .tryTake

def messageFree (allocator : State T UInt32 ℕ) (t : T) (message : ℕ) :
    Option (State T UInt32 ℕ) :=
  allocator.call t (.put message)

def write (queue : State T UInt32 ℕ) (t : T) (message : ℕ) : Option (State T UInt32 ℕ) :=
  queue.call t (.put message)

def tryread (queue : State T UInt32 ℕ) (t : T) : Option (State T UInt32 ℕ) :=
  queue.call t .tryTake

def read (queue : State T UInt32 ℕ) (t : T) : Option (State T UInt32 ℕ) :=
  queue.call t .take

def System.setTask (s : System T V) (t : T) (task : Task V) : System T V :=
  { s with task := Function.update s.task t task }

def System.turn (setup : Setup) (s : System T V) (t : T) : Option (System T V) :=
  match s.task t with
  | .idle => none
  | .allocating v =>
    match s.allocator.leave t with
    | some (r, a) => some ({ s with allocator := a }.setTask t (.allocated v r))
    | none => (s.allocator.move setup.indexing t).map fun a => { s with allocator := a }
  | .filling message v =>
    some ({ s with contents := Function.update s.contents message v }.setTask t (.filled message v))
  | .filled message v =>
    (write s.queue t message).map fun q => { s with queue := q }.setTask t (.writing v)
  | .writing v =>
    match s.queue.pc t with
    | .idle => some (s.setTask t .idle)
    | .put _ => (s.queue.move setup.indexing t).map fun q =>
        { s with queue := q, sent := s.sent ++ [v] }
    | _ => (s.queue.move setup.indexing t).map fun q => { s with queue := q }
  | .reading =>
    match s.queue.leave t with
    | some (r, q) => some ({ s with queue := q }.setTask t (.gotten r))
    | none => (s.queue.move setup.indexing t).map fun q => { s with queue := q }
  | .loading message =>
    some ({ s with received := s.received ++ [s.contents message] }.setTask t (.loaded message))
  | .loaded message =>
    (messageFree s.allocator t message).map fun a => { s with allocator := a }.setTask t .freeing
  | .freeing =>
    match s.allocator.pc t with
    | .idle => some (s.setTask t .idle)
    | _ => (s.allocator.move setup.indexing t).map fun a => { s with allocator := a }

def System.step (setup : Setup) (s : System T V) : Event T V → Option (System T V)
  | .send t v =>
    match s.task t with
    | .idle => (messageAlloc s.allocator t).map fun a =>
        { s with allocator := a }.setTask t (.allocating v)
    | _ => none
  | .read t =>
    match s.task t with
    | .idle => (read s.queue t).map fun q => { s with queue := q }.setTask t .reading
    | _ => none
  | .tryread t =>
    match s.task t with
    | .idle => (tryread s.queue t).map fun q => { s with queue := q }.setTask t .reading
    | _ => none
  | .turn t => s.turn setup t

def System.init (setup : Setup) (contents : ℕ → V) : System T V where
  toMessageQueue := messageQueueInit setup
  contents := contents
  task := fun _ => .idle
  sent := []
  received := []

/-- One thread reads, and the others send. -/
def Allowed (c : T) : Event T V → Prop
  | .send t _ => t ≠ c
  | .read t | .tryread t => t = c
  | .turn _ => True

instance (c : T) : ∀ e : Event T V, Decidable (Allowed c e)
  | .send t _ => inferInstanceAs (Decidable (t ≠ c))
  | .read t | .tryread t => inferInstanceAs (Decidable (t = c))
  | .turn _ => inferInstanceAs (Decidable True)

/-- A state that the threads can bring about, with `c` as the reader. -/
def Reachable (setup : Setup) (contents : ℕ → V) (c : T) (s : System T V) : Prop :=
  Runs.Reach (System.step setup) (fun _ e => Allowed c e) (System.init setup contents) s

end Threads

section Custody
variable {T V : Type*}

def Task.hand : Task V → Multiset ℕ
  | .filling message _ | .filled message _ | .loading message | .loaded message => {message}
  | _ => 0

def Task.Fits (a q : Pc UInt32 ℕ) : Task V → Prop
  | .idle | .filling _ _ | .filled _ _ | .loading _ | .loaded _ => a = .idle ∧ q = .idle
  | .allocating _ => a.Tries ∧ q = .idle
  | .writing _ => a = .idle ∧ (q.Puts ∨ q = .idle)
  | .reading => a = .idle ∧ (q.Takes ∨ ∃ r, q = .returned r)
  | .freeing => (a.Puts ∨ a = .idle) ∧ q = .idle

def Task.Sends : Task V → Prop
  | .allocating _ | .filling _ _ | .filled _ _ | .writing _ => True
  | _ => False

def Task.Reads : Task V → Prop
  | .reading | .loading _ | .loaded _ | .freeing => True
  | _ => False

def Task.unread : Task V → List ℕ
  | .loading message => [message]
  | _ => []

def System.pending (s : System T V) (c : T) : List ℕ := (s.task c).unread ++ s.queue.line c

def Task.Written (contents : ℕ → V) (q : Pc UInt32 ℕ) : Task V → Prop
  | .filled message v => contents message = v
  | .writing v => ∀ message, q = .put message → contents message = v
  | _ => True

structure Valid [Fintype T] (setup : Setup) (c : T) (s : System T V) : Prop where
  allocator : OnePutter setup.indexing s.allocator c
  queue : OneTaker setup.indexing s.queue c
  fits : ∀ t, (s.task t).Fits (s.allocator.pc t) (s.queue.pc t)
  sends : ∀ t, (s.task t).Sends → t ≠ c
  reads : ∀ t, (s.task t).Reads → t = c
  blocks : s.queue.content + s.allocator.content + ∑ t, (s.task t).hand = setup.blocks
  written : ∀ t, (s.task t).Written s.contents (s.queue.pc t)
  fifo : s.sent = s.received ++ (s.pending c).map s.contents

variable [Fintype T] {setup : Setup} {c t : T} {s s' : System T V}

theorem Valid.card_le (h : Valid setup c s) : s.queue.content.card ≤ setup.indexing.depth := by
  have hcard := congrArg Multiset.card h.blocks
  simp only [Multiset.card_add, Multiset.coe_card, setup.length_blocks] at hcard
  change s.queue.content.card ≤ setup.depth
  omega

variable [DecidableEq T]

/-- A message in a thread's hand is a block, and nowhere else. -/
theorem Valid.exclusive (h : Valid setup c s) {message : ℕ} (ht : (s.task t).hand = {message}) :
    message ∈ setup.blocks ∧ message ∉ s.queue.content ∧ message ∉ s.allocator.content ∧
      ∀ u, u ≠ t → message ∉ (s.task u).hand := by
  have hnodup : (s.queue.content + s.allocator.content + ∑ t, (s.task t).hand).Nodup := by
    rw [h.blocks]
    exact Multiset.coe_nodup.mpr setup.nodup_blocks
  obtain ⟨-, hhands, hapart⟩ := Multiset.nodup_add.mp hnodup
  have hle : ∀ u, (s.task u).hand ≤ ∑ t, (s.task t).hand := fun u =>
    Finset.single_le_sum (f := fun t => (s.task t).hand) (fun _ _ => Multiset.zero_le _)
      (Finset.mem_univ u)
  have hmem : message ∈ (s.task t).hand := ht ▸ Multiset.mem_singleton_self message
  have hall : message ∈ ∑ t, (s.task t).hand := Multiset.mem_of_le (hle t) hmem
  have hrings : message ∉ s.queue.content + s.allocator.content := fun hin =>
    Multiset.disjoint_left.mp hapart hin hall
  rw [Multiset.mem_add, not_or] at hrings
  refine ⟨?_, hrings.1, hrings.2, fun u hu hin => ?_⟩
  · rw [← Multiset.mem_coe, ← h.blocks]
    exact Multiset.mem_add.mpr (Or.inr hall)
  · rw [← Finset.add_sum_erase Finset.univ (fun t => (s.task t).hand) (Finset.mem_univ t)] at hhands
    refine Multiset.disjoint_left.mp (Multiset.nodup_add.mp hhands).2.2 hmem ?_
    exact Multiset.mem_of_le (Finset.single_le_sum (f := fun t => (s.task t).hand)
      (fun _ _ => Multiset.zero_le _) (Finset.mem_erase.mpr ⟨hu, Finset.mem_univ u⟩)) hin

theorem Valid.update (h : Valid setup c s) {a q : State T UInt32 ℕ} {task : Task V}
    {contents : ℕ → V} {sent received : List V} (ha : OnePutter setup.indexing a c)
    (hq : OneTaker setup.indexing q c) (hpca : ∀ u, u ≠ t → a.pc u = s.allocator.pc u)
    (hpcq : ∀ u, u ≠ t → q.pc u = s.queue.pc u) (hfits : task.Fits (a.pc t) (q.pc t))
    (hsends : task.Sends → t ≠ c) (hreads : task.Reads → t = c)
    (hblocks : q.content + a.content + task.hand =
      s.queue.content + s.allocator.content + (s.task t).hand)
    (hwritten : task.Written contents (q.pc t))
    (hothers : ∀ u, u ≠ t → (s.task u).Written contents (s.queue.pc u))
    (hfifo : sent = received ++
      ((Function.update s.task t task c).unread ++ q.line c).map contents) :
    Valid setup c ⟨⟨a, q⟩, contents, Function.update s.task t task, sent, received⟩ where
  allocator := ha
  queue := hq
  fits := by
    refine (Function.forall_update_iff s.task fun u x => x.Fits (a.pc u) (q.pc u)).mpr
      ⟨hfits, fun u hu => ?_⟩
    rw [hpca u hu, hpcq u hu]
    exact h.fits u
  sends := (Function.forall_update_iff s.task fun u x => x.Sends → u ≠ c).mpr
    ⟨hsends, fun u _ => h.sends u⟩
  reads := (Function.forall_update_iff s.task fun u x => x.Reads → u = c).mpr
    ⟨hreads, fun u _ => h.reads u⟩
  blocks := by
    have hsum := sum_update s.task Task.hand t task
    refine add_right_cancel (b := (s.task t).hand) ?_
    calc q.content + a.content + ∑ u, (Function.update s.task t task u).hand + (s.task t).hand
        = q.content + a.content + task.hand + ∑ u, (s.task u).hand := by
          rw [add_assoc, hsum]
          abel
      _ = s.queue.content + s.allocator.content + ∑ u, (s.task u).hand + (s.task t).hand := by
          rw [hblocks]
          abel
      _ = setup.blocks + (s.task t).hand := by rw [h.blocks]
  written := by
    refine (Function.forall_update_iff s.task fun u x => x.Written contents (q.pc u)).mpr
      ⟨hwritten, fun u hu => ?_⟩
    rw [hpcq u hu]
    exact hothers u hu
  fifo := hfifo

omit [Fintype T] in
theorem unread_update {task : Task V} (hunread : task.unread = (s.task t).unread) :
    (Function.update s.task t task c).unread = (s.task c).unread := by
  by_cases hct : c = t
  · subst hct
    rw [Function.update_self, hunread]
  · rw [Function.update_of_ne hct]

theorem Valid.frame (h : Valid setup c s) {a q : State T UInt32 ℕ} {task : Task V}
    (ha : OnePutter setup.indexing a c) (hq : OneTaker setup.indexing q c)
    (hpca : ∀ u, u ≠ t → a.pc u = s.allocator.pc u) (hpcq : ∀ u, u ≠ t → q.pc u = s.queue.pc u)
    (hfits : task.Fits (a.pc t) (q.pc t)) (hsends : task.Sends → t ≠ c)
    (hreads : task.Reads → t = c)
    (hblocks : q.content + a.content + task.hand =
      s.queue.content + s.allocator.content + (s.task t).hand)
    (hwritten : task.Written s.contents (q.pc t)) (hline : q.line c = s.queue.line c)
    (hunread : task.unread = (s.task t).unread) :
    Valid setup c ⟨⟨a, q⟩, s.contents, Function.update s.task t task, s.sent, s.received⟩ := by
  refine h.update ha hq hpca hpcq hfits hsends hreads hblocks hwritten (fun u _ => h.written u) ?_
  rw [unread_update hunread, hline]
  exact h.fifo

theorem Valid.allocCall (h : Valid setup c s) {a : State T UInt32 ℕ} {v : V}
    (htask : s.task t = .idle) (ht : t ≠ c) (hs : messageAlloc s.allocator t = some a) :
    Valid setup c ({ s with allocator := a }.setTask t (.allocating v)) := by
  have hfits := h.fits t
  have hcontent : a.content = s.allocator.content := (content_call hs).trans (add_zero _)
  rw [htask] at hfits
  refine h.frame (h.allocator.call (fun hputs => absurd hputs id) hs) h.queue (call_others hs)
    (fun _ _ => rfl) ⟨?_, hfits.2⟩ (fun _ => ht) (fun hreads => absurd hreads id) ?_ trivial rfl ?_
  · rw [call_self hs]
    trivial
  · rw [hcontent, htask]
    rfl
  · rw [htask]
    rfl

theorem Valid.allocMove (h : Valid setup c s) {a : State T UInt32 ℕ} {v : V}
    (htask : s.task t = .allocating v) (hs : s.allocator.move setup.indexing t = some a) :
    Valid setup c { s with allocator := a } := by
  have hfits := h.fits t
  rw [htask] at hfits
  have hframe : Valid setup c ({ s with allocator := a }.setTask t (.allocating v)) := by
    refine h.frame (h.allocator.move hs) h.queue (move_others hs) (fun _ _ => rfl)
      ⟨next_tries (move_self hs) hfits.1, hfits.2⟩ (fun hsends => h.sends t (htask ▸ hsends))
      (fun hreads => absurd hreads id) ?_ trivial rfl ?_
    · rw [content_move h.allocator.inv hs, htask]
    · rw [htask]
  rwa [System.setTask, ← htask, Function.update_eq_self] at hframe

theorem Valid.allocReturn (h : Valid setup c s) {a : State T UInt32 ℕ} {r : Option ℕ} {v : V}
    (htask : s.task t = .allocating v) (hs : s.allocator.leave t = some (r, a)) :
    Valid setup c ({ s with allocator := a }.setTask t (.allocated v r)) := by
  have hfits := h.fits t
  have hcontent := content_leave hs
  have hhand : (Task.allocated v r).hand = (r.toList : Multiset ℕ) := by
    cases r <;> rfl
  rw [htask] at hfits
  refine h.frame (h.allocator.leave hs) h.queue (leave_others hs) (fun _ _ => rfl) ?_
    (fun _ => h.sends t (by rw [htask]; trivial)) ?_ ?_ ?_ rfl ?_
  · cases r <;> exact ⟨leave_self hs, hfits.2⟩
  · cases r <;> exact fun hreads => absurd hreads id
  · rw [hhand, ← hcontent, htask, add_assoc]
    exact (add_zero _).symm
  · cases r <;> trivial
  · rw [htask]
    cases r <;> rfl

theorem Valid.fill (h : Valid setup c s) {message : ℕ} {v : V}
    (htask : s.task t = .filling message v) :
    Valid setup c ({ s with contents := Function.update s.contents message v }.setTask t
      (.filled message v)) := by
  have hfits := h.fits t
  have hsends := h.sends t (by rw [htask]; trivial)
  have hhand : (s.task t).hand = {message} := by
    rw [htask]
    rfl
  obtain ⟨-, hqueue, -, hhands⟩ := h.exclusive hhand
  rw [htask] at hfits
  refine h.update h.allocator h.queue (fun _ _ => rfl) (fun _ _ => rfl) hfits (fun _ => hsends)
    (fun hreads => absurd hreads id) ?_ (Function.update_self _ _ _) (fun u hu => ?_) ?_
  · rw [htask]
    rfl
  · have hold := h.written u
    have hhand := hhands u hu
    cases hpu : s.task u <;> rw [hpu] at hold hhand <;> simp only [Task.Written] at hold ⊢
    case filled other w =>
      rw [Function.update_of_ne]
      · exact hold
      · rintro rfl
        exact hhand (Multiset.mem_singleton_self _)
    case writing w =>
      intro other hput
      rw [Function.update_of_ne]
      · exact hold other hput
      · rintro rfl
        refine hqueue (Multiset.mem_of_le (hand_le_content s.queue u) ?_)
        rw [hput]
        exact Multiset.mem_singleton_self _
  · have hunread : (Function.update s.task t (.filled message v) c).unread =
        (s.task c).unread := unread_update (by rw [htask]; rfl)
    have hmap : (s.pending c).map (Function.update s.contents message v) =
        (s.pending c).map s.contents := by
      refine List.map_congr_left fun other hother => ?_
      rw [Function.update_of_ne]
      rintro rfl
      obtain hin | hin := List.mem_append.mp hother
      · refine hhands c hsends.symm ?_
        cases hc : s.task c <;> simp [hc, Task.unread, Task.hand] at hin ⊢
        exact hin
      · exact hqueue (Multiset.mem_of_le (line_le_content s.queue c) hin)
    rw [hunread]
    exact h.fifo.trans (congrArg _ hmap.symm)

theorem Valid.writeCall (h : Valid setup c s) {q : State T UInt32 ℕ} {message : ℕ} {v : V}
    (htask : s.task t = .filled message v) (hs : write s.queue t message = some q) :
    Valid setup c ({ s with queue := q }.setTask t (.writing v)) := by
  have hfits := h.fits t
  have hwritten := h.written t
  have hcontent : q.content = s.queue.content + {message} := content_call hs
  rw [htask] at hfits hwritten
  refine h.frame h.allocator (h.queue.call (fun htakes => absurd htakes id) hs) (fun _ _ => rfl)
    (call_others hs) ⟨hfits.1, Or.inl ?_⟩ (fun _ => h.sends t (by rw [htask]; trivial))
    (fun hreads => absurd hreads id) ?_ ?_ (line_call hs) ?_
  · rw [call_self hs]
    trivial
  · rw [hcontent, htask]
    simp only [Task.hand]
    abel
  · intro other hput
    rw [call_self hs] at hput
    cases hput
    exact hwritten
  · rw [htask]
    rfl

theorem Valid.writePut (h : Valid setup c s) {q : State T UInt32 ℕ} {message : ℕ} {v : V}
    (htask : s.task t = .writing v) (hput : s.queue.pc t = .put message)
    (hs : s.queue.move setup.indexing t = some q) :
    Valid setup c { s with queue := q, sent := s.sent ++ [v] } := by
  have hfits := h.fits t
  have hwritten := h.written t
  rw [htask] at hfits hwritten
  have hline := line_move h.queue hs
  rw [hput] at hline
  have hputs : (q.pc t).Puts ∨ q.pc t = .idle :=
    next_puts (move_self hs) (by rw [hput]; trivial)
  have hupdate : Valid setup c
      ({ s with queue := q, sent := s.sent ++ [v] }.setTask t (.writing v)) := by
    refine h.update h.allocator (h.queue.move h.card_le (by decide) hs) (fun _ _ => rfl)
      (move_others hs) ⟨hfits.1, hputs⟩ (fun hsends => h.sends t (htask ▸ hsends))
      (fun hreads => absurd hreads id) ?_ ?_ (fun u _ => h.written u) ?_
    · rw [content_move h.queue.inv hs, htask]
    · exact fun other hother => absurd hother (next_ne_put (move_self hs) other)
    · have hpending : (Function.update s.task t (.writing v) c).unread ++ q.line c =
          s.pending c ++ [message] := by
        rw [unread_update (by rw [htask]), hline, ← List.append_assoc]
        rfl
      dsimp only
      rw [hpending, h.fifo, List.map_append, List.map_singleton, hwritten message hput,
        List.append_assoc]
  rwa [System.setTask, ← htask, Function.update_eq_self] at hupdate

theorem Valid.writeMove (h : Valid setup c s) {q : State T UInt32 ℕ} {v : V}
    (htask : s.task t = .writing v) (hidle : s.queue.pc t ≠ .idle)
    (hput : ∀ message, s.queue.pc t ≠ .put message)
    (hs : s.queue.move setup.indexing t = some q) : Valid setup c { s with queue := q } := by
  have hfits := h.fits t
  rw [htask] at hfits
  have hputs := hfits.2.resolve_right hidle
  have happends : (s.queue.pc t).appends = [] := by
    cases hp : s.queue.pc t
    case put message => exact absurd hp (hput message)
    all_goals rfl
  have hframe : Valid setup c ({ s with queue := q }.setTask t (.writing v)) := by
    refine h.frame h.allocator (h.queue.move h.card_le (by decide) hs) (fun _ _ => rfl)
      (move_others hs) ⟨hfits.1, next_puts (move_self hs) hputs⟩
      (fun hsends => h.sends t (htask ▸ hsends)) (fun hreads => absurd hreads id) ?_ ?_ ?_ ?_
    · rw [content_move h.queue.inv hs, htask]
    · exact fun message hmessage => absurd hmessage (next_ne_put (move_self hs) message)
    · rw [line_move h.queue hs, happends, List.append_nil]
    · rw [htask]
  rwa [System.setTask, ← htask, Function.update_eq_self] at hframe

theorem Valid.done (h : Valid setup c s) (hhand : (s.task t).hand = 0)
    (hunread : (s.task t).unread = []) (ha : s.allocator.pc t = .idle)
    (hq : s.queue.pc t = .idle) : Valid setup c (s.setTask t .idle) := by
  refine h.frame h.allocator h.queue (fun _ _ => rfl) (fun _ _ => rfl) ⟨ha, hq⟩
    (fun hsends => absurd hsends id) (fun hreads => absurd hreads id) ?_ trivial rfl ?_
  · rw [hhand]
    rfl
  · rw [hunread]
    rfl

theorem Valid.readCall (h : Valid setup c s) {q : State T UInt32 ℕ} {op : Op ℕ}
    (htask : s.task t = .idle) (ht : t = c) (hs : s.queue.call t op = some q)
    (hop : (op.start : Pc UInt32 ℕ).Takes) :
    Valid setup c ({ s with queue := q }.setTask t .reading) := by
  have hfits := h.fits t
  have hcontent := content_call hs
  have hhand : (op.start : Pc UInt32 ℕ).hand s.queue.ring.log = 0 := by
    cases op with
    | tryTake | take => rfl
    | put => exact absurd hop id
  rw [htask] at hfits
  rw [hhand, add_zero] at hcontent
  refine h.frame h.allocator (h.queue.call (fun _ => ht) hs) (fun _ _ => rfl) (call_others hs)
    ⟨hfits.1, Or.inl ?_⟩ (fun hsends => absurd hsends id) (fun _ => ht) ?_ trivial (line_call hs) ?_
  · rwa [call_self hs]
  · rw [hcontent, htask]
    rfl
  · rw [htask]
    rfl

theorem Valid.readMove (h : Valid setup c s) {q : State T UInt32 ℕ}
    (htask : s.task t = .reading) (hs : s.queue.move setup.indexing t = some q) :
    Valid setup c { s with queue := q } := by
  have hfits := h.fits t
  have hnext := move_self hs
  rw [htask] at hfits
  have htakes : (s.queue.pc t).Takes := by
    obtain htakes | ⟨r, hr⟩ := hfits.2
    · exact htakes
    · rw [hr] at hnext
      cases hnext
  have happends : (s.queue.pc t).appends = [] := by
    cases hp : s.queue.pc t
    case put message =>
      rw [hp] at htakes
      exact absurd htakes id
    all_goals rfl
  have hframe : Valid setup c ({ s with queue := q }.setTask t .reading) := by
    refine h.frame h.allocator (h.queue.move h.card_le (by decide) hs) (fun _ _ => rfl)
      (move_others hs) ⟨hfits.1, next_takes hnext htakes⟩ (fun hsends => absurd hsends id)
      (fun hreads => h.reads t (htask ▸ hreads)) ?_ trivial ?_ ?_
    · rw [content_move h.queue.inv hs, htask]
    · rw [line_move h.queue hs, happends, List.append_nil]
    · rw [htask]
  rwa [System.setTask, ← htask, Function.update_eq_self] at hframe

theorem Valid.readReturn (h : Valid setup c s) {q : State T UInt32 ℕ} {r : Option ℕ}
    (htask : s.task t = .reading) (hs : s.queue.leave t = some (r, q)) :
    Valid setup c ({ s with queue := q }.setTask t (.gotten r)) := by
  have hfits := h.fits t
  have hcontent := content_leave hs
  have hhand : (Task.gotten r : Task V).hand = (r.toList : Multiset ℕ) := by
    cases r <;> rfl
  have hunread : (Task.gotten r : Task V).unread = r.toList := by
    cases r <;> rfl
  obtain rfl : t = c := h.reads t (by rw [htask]; trivial)
  rw [htask] at hfits
  refine h.update h.allocator (h.queue.leave hs) (fun _ _ => rfl) (leave_others hs) ?_ ?_
    (fun _ => rfl) ?_ ?_ (fun u _ => h.written u) ?_
  · cases r <;> exact ⟨hfits.1, leave_self hs⟩
  · cases r <;> exact fun hsends => absurd hsends id
  · rw [hhand, ← hcontent, htask]
    simp only [Task.hand]
    abel
  · cases r <;> trivial
  · have hold := h.fifo
    rw [System.pending, htask, line_leave hs] at hold
    rw [Function.update_self, hunread]
    exact hold

theorem Valid.load (h : Valid setup c s) {message : ℕ} (htask : s.task t = .loading message) :
    Valid setup c ({ s with received := s.received ++ [s.contents message] }.setTask t
      (.loaded message)) := by
  have hfits := h.fits t
  obtain rfl : t = c := h.reads t (by rw [htask]; trivial)
  rw [htask] at hfits
  refine h.update h.allocator h.queue (fun _ _ => rfl) (fun _ _ => rfl) hfits
    (fun hsends => absurd hsends id) (fun _ => rfl) ?_ trivial (fun u _ => h.written u) ?_
  · rw [htask]
    rfl
  · have hold := h.fifo
    rw [System.pending, htask] at hold
    rw [Function.update_self, hold, List.append_assoc]
    rfl

theorem Valid.freeCall (h : Valid setup c s) {a : State T UInt32 ℕ} {message : ℕ}
    (htask : s.task t = .loaded message) (hs : messageFree s.allocator t message = some a) :
    Valid setup c ({ s with allocator := a }.setTask t .freeing) := by
  have hfits := h.fits t
  have hreads := h.reads t (by rw [htask]; trivial)
  have hcontent : a.content = s.allocator.content + {message} := content_call hs
  rw [htask] at hfits
  refine h.frame (h.allocator.call (fun _ => hreads) hs) h.queue (call_others hs) (fun _ _ => rfl)
    ⟨Or.inl ?_, hfits.2⟩ (fun hsends => absurd hsends id) (fun _ => hreads) ?_ trivial rfl ?_
  · rw [call_self hs]
    trivial
  · rw [hcontent, htask, ← add_assoc]
    exact add_zero _
  · rw [htask]
    rfl

theorem Valid.freeMove (h : Valid setup c s) {a : State T UInt32 ℕ}
    (htask : s.task t = .freeing) (hidle : s.allocator.pc t ≠ .idle)
    (hs : s.allocator.move setup.indexing t = some a) :
    Valid setup c { s with allocator := a } := by
  have hfits := h.fits t
  rw [htask] at hfits
  have hframe : Valid setup c ({ s with allocator := a }.setTask t .freeing) := by
    refine h.frame (h.allocator.move hs) h.queue (move_others hs) (fun _ _ => rfl)
      ⟨next_puts (move_self hs) (hfits.1.resolve_right hidle), hfits.2⟩
      (fun hsends => absurd hsends id) (fun hreads => h.reads t (htask ▸ hreads)) ?_ trivial rfl ?_
    · rw [content_move h.allocator.inv hs, htask]
    · rw [htask]
  rwa [System.setTask, ← htask, Function.update_eq_self] at hframe

theorem Valid.turn (h : Valid setup c s) (hs : s.turn setup t = some s') : Valid setup c s' := by
  have hfits := h.fits t
  cases htask : s.task t <;> rw [htask] at hfits <;>
    simp only [System.turn, htask, Option.some.injEq, reduceCtorEq] at hs
  case allocating v =>
    split at hs
    next r a hleave =>
      obtain rfl := Option.some.inj hs
      exact h.allocReturn htask hleave
    next =>
      obtain ⟨a, hmove, rfl⟩ := Option.map_eq_some_iff.mp hs
      exact h.allocMove htask hmove
  case filling message v =>
    subst hs
    exact h.fill htask
  case filled message v =>
    obtain ⟨q, hcall, rfl⟩ := Option.map_eq_some_iff.mp hs
    exact h.writeCall htask hcall
  case writing v =>
    split at hs
    next hidle =>
      obtain rfl := Option.some.inj hs
      exact h.done (by rw [htask]; rfl) (by rw [htask]; rfl) hfits.1 hidle
    next message hput =>
      obtain ⟨q, hmove, rfl⟩ := Option.map_eq_some_iff.mp hs
      exact h.writePut htask hput hmove
    next hidle hput =>
      obtain ⟨q, hmove, rfl⟩ := Option.map_eq_some_iff.mp hs
      exact h.writeMove htask hidle hput hmove
  case reading =>
    split at hs
    next r q hleave =>
      obtain rfl := Option.some.inj hs
      exact h.readReturn htask hleave
    next =>
      obtain ⟨q, hmove, rfl⟩ := Option.map_eq_some_iff.mp hs
      exact h.readMove htask hmove
  case loading message =>
    subst hs
    exact h.load htask
  case loaded message =>
    obtain ⟨a, hcall, rfl⟩ := Option.map_eq_some_iff.mp hs
    exact h.freeCall htask hcall
  case freeing =>
    split at hs
    next hidle =>
      obtain rfl := Option.some.inj hs
      exact h.done (by rw [htask]; rfl) (by rw [htask]; rfl) hidle hfits.2
    next hidle =>
      obtain ⟨a, hmove, rfl⟩ := Option.map_eq_some_iff.mp hs
      exact h.freeMove htask hidle hmove

theorem Valid.step (h : Valid setup c s) {e : Event T V} (he : Allowed c e)
    (hs : s.step setup e = some s') : Valid setup c s' := by
  cases e with
  | send t v =>
    rw [System.step] at hs
    split at hs
    next hidle =>
      obtain ⟨a, hcall, rfl⟩ := Option.map_eq_some_iff.mp hs
      exact h.allocCall hidle he hcall
    next => cases hs
  | read t =>
    rw [System.step] at hs
    split at hs
    next hidle =>
      obtain ⟨q, hcall, rfl⟩ := Option.map_eq_some_iff.mp hs
      exact h.readCall hidle he hcall trivial
    next => cases hs
  | tryread t =>
    rw [System.step] at hs
    split at hs
    next hidle =>
      obtain ⟨q, hcall, rfl⟩ := Option.map_eq_some_iff.mp hs
      exact h.readCall hidle he hcall trivial
    next => cases hs
  | turn t => exact h.turn hs

omit [DecidableEq T] in
theorem Valid.init (setup : Setup) (contents : ℕ → V) (c : T) :
    Valid setup c (System.init setup contents) where
  allocator :=
    OnePutter.holding setup.length_blocks.le (by rw [setup.length_blocks]; exact Nat.mod_self _) c
  queue := OneTaker.holding (Nat.zero_le _) (Nat.zero_mod _) c
  fits := fun _ => ⟨rfl, rfl⟩
  sends := fun _ h => absurd h id
  reads := fun _ h => absurd h id
  blocks := by
    have hallocator := content_holding (T := T) (C := UInt32) setup.blocks
    have hqueue := content_holding (T := T) (C := UInt32) ([] : List ℕ)
    simp only [System.init, messageQueueInit, hallocator, hqueue, Task.hand]
    simp
  written := fun _ => trivial
  fifo := rfl

theorem valid_of_reachable {contents : ℕ → V} (h : Reachable setup contents c s) :
    Valid setup c s :=
  h.invariant (Valid.init setup contents c) fun _ _ _ ht he hs => ht.step he hs

end Custody

section Results
variable {T V : Type*} [DecidableEq T] {setup : Setup} {contents : ℕ → V} {c : T} {s : System T V}

theorem exists_reachable (es : List (Event T V)) (test : System T V → Bool)
    (hes : ∀ e ∈ es, Allowed c e)
    (hrun : (Runs.run (System.step setup) es (System.init setup contents)).any test = true) :
    ∃ s, Reachable setup contents c s ∧ test s = true := by
  obtain ⟨s, hs, htest⟩ := (Option.any_eq_true _ _).mp hrun
  exact ⟨s, Runs.reach_of_run (fun e he _ => hes e he) hs, htest⟩

variable [Fintype T]

/-- The blocks are pieces of the memory that do not overlap. They are in slots of the freelist or
the queue, on their way between a slot and a thread, or in the hands of the threads, each of them
once: nobody else can get at the message that a thread is filling or reading. -/
theorem blocks_kept (h : Reachable setup contents c s) :
    (∀ i j, i < j → j < setup.depth → setup.block i + setup.messageSize ≤ setup.block j) ∧
      (∀ i < setup.depth,
        setup.block i + setup.messageSize ≤ setup.memory + setup.memorySize) ∧
      s.queue.held setup.indexing + s.allocator.held setup.indexing + ∑ t, (s.task t).hand =
        setup.blocks ∧
      ∀ t message, (s.task t).hand = {message} →
        message ∈ setup.blocks ∧ message ∉ s.queue.held setup.indexing ∧
          message ∉ s.allocator.held setup.indexing ∧
          ∀ u, u ≠ t → message ∉ (s.task u).hand := by
  have hvalid := valid_of_reachable h
  rw [hvalid.queue.held, hvalid.allocator.held]
  exact ⟨fun i j => setup.block_apart, fun i => setup.block_le, hvalid.blocks,
    fun t message ht => hvalid.exclusive ht⟩

/-- The thread `false` is about to fill a block while `true` waits in a read. -/
theorem blocks_kept_filling : ∃ s : System Bool ℕ, (s.task false).hand = {4096} ∧
    (s.task true).hand = 0 ∧
    s.queue.held (mqSetup 4096).indexing + s.allocator.held (mqSetup 4096).indexing +
      ∑ t, (s.task t).hand = (mqSetup 4096).blocks ∧
    4096 ∉ s.queue.held (mqSetup 4096).indexing := by
  have hrun : ∃ s : System Bool ℕ, Reachable (mqSetup 4096) (fun _ => 0) true s ∧
      decide ((s.task false).hand = {4096} ∧ (s.task true).hand = 0) = true :=
    exists_reachable [.send false 7, .turn false, .turn false, .read true, .turn false, .turn false,
      .turn true, .turn false] _ (by decide) (by decide +kernel)
  obtain ⟨s, hreach, htest⟩ := hrun
  obtain ⟨hfalse, htrue⟩ := of_decide_eq_true htest
  obtain ⟨-, -, hblocks, hexclusive⟩ := blocks_kept hreach
  exact ⟨s, hfalse, htrue, hblocks, (hexclusive false 4096 hfalse).2.1⟩

/-- The reader gets what was written, in the order of the writers' tickets, and at most `max_depth`
messages are on the way. -/
theorem received_in_order (h : Reachable setup contents c s) :
    s.sent = s.received ++ (s.pending c).map s.contents ∧
      (s.pending c).length ≤ setup.depth := by
  have hvalid := valid_of_reachable h
  refine ⟨hvalid.fifo, ?_⟩
  have hcard := congrArg Multiset.card hvalid.blocks
  have hline := Multiset.card_le_card (line_le_content s.queue c)
  have hhand : ((s.task c).unread : Multiset ℕ) ≤ ∑ t, (s.task t).hand := by
    refine le_trans ?_ (Finset.single_le_sum (f := fun t => (s.task t).hand)
      (fun _ _ => Multiset.zero_le _) (Finset.mem_univ c))
    cases hc : s.task c <;> simp [Task.unread, Task.hand]
  have hunread := Multiset.card_le_card hhand
  simp only [Multiset.card_add, Multiset.coe_card, setup.length_blocks] at hcard hline hunread
  rw [System.pending, List.length_append]
  omega

/-- One message is received while the next one is on its way. -/
theorem received_in_order_seven : ∃ s : System Bool ℕ, s.received = [7] ∧ s.sent = [7, 8] ∧
    s.sent = s.received ++ (s.pending true).map s.contents ∧
      (s.pending true).length ≤ (mqSetup 4096).depth := by
  have hrun : ∃ s : System Bool ℕ, Reachable (mqSetup 4096) (fun _ => 0) true s ∧
      decide (s.received = [7] ∧ s.sent = [7, 8]) = true :=
    exists_reachable (.send false 7 :: .replicate 13 (.turn false) ++ .send false 8 :: .read true ::
      .replicate 8 (.turn false) ++ .replicate 6 (.turn true)) _ (by decide) (by decide +kernel)
  obtain ⟨s, hreach, htest⟩ := hrun
  obtain ⟨hreceived, hsent⟩ := of_decide_eq_true htest
  exact ⟨s, hreceived, hsent, received_in_order hreach⟩

end Results

end Mixnet.Itc
