import Mathlib.Data.BitVec
import Memcache.Lib.KeyMap

/-!
# The event bus

Subscribers register a buffered channel with the bus, and cancel or are cut off when the bus is closed.
A step is one atomic operation or one critical section: `subscribe` reads the closed flag, draws an
identifier and registers, three steps between which anything may happen; `unsubscribe` takes the
registration out and then closes the channel; `close` sets the flag and then, under the lock, closes the
channels of all that are registered.

A channel counts the calls of `close` on it, and the sends that came after one. In Go either is a panic:
a second close, or a send on a closed channel.
-/

namespace Memcache

/-! ### Kinds of events -/

inductive EventKind where
  | insert
  | update
  | evict
  | expire
  | load
  | loadError
  | loadTimeout
  | loadRateLimited
  | invalidateTag
  | resize
  | snapshot
deriving DecidableEq

namespace EventKind

def toNat : EventKind → ℕ
  | .insert => 0
  | .update => 1
  | .evict => 2
  | .expire => 3
  | .load => 4
  | .loadError => 5
  | .loadTimeout => 6
  | .loadRateLimited => 7
  | .invalidateTag => 8
  | .resize => 9
  | .snapshot => 10

/-- The bit of a kind. -/
def bit (k : EventKind) : BitVec 32 := 1#32 <<< k.toNat

end EventKind

/-- A set of kinds; the empty mask stands for every kind. -/
abbrev EventKindMask := BitVec 32

namespace EventKindMask

def has (m : EventKindMask) (k : EventKind) : Bool := m == 0 || m &&& k.bit != 0

def kindMask (kinds : List EventKind) : EventKindMask := kinds.foldl (fun m k ↦ m ||| k.bit) 0

end EventKindMask

/-! ### The bus -/

/-- What `publish` reads of an event, and the rest of it. -/
structure BusEvent (P : Type*) where
  kind : EventKind
  payload : P

/-- A registration: the channel, by the number of the `subscribe` call that brought it, and its kinds. -/
structure Subscription where
  ch : ℕ
  kinds : EventKindMask

structure EventBus where
  subs : KeyMap UInt64 Subscription
  nextID : UInt64
  closed : Bool
  count : ℕ

namespace EventBus

def new : EventBus := ⟨.empty, 0, false, 0⟩

/-- Writers skip events nobody receives. -/
def active (b : EventBus) : Bool := 0 < b.count

/-- The section of `subscribe`. -/
def register (b : EventBus) (id : UInt64) (sub : Subscription) : EventBus :=
  { b with subs := b.subs.insert id sub, count := (b.subs.insert id sub).pairs.length }

/-- The section of `unsubscribe`. -/
def remove (b : EventBus) (id : UInt64) : EventBus :=
  { b with subs := b.subs.erase id, count := (b.subs.erase id).pairs.length }

/-- The section of `close`. -/
def clear (b : EventBus) : EventBus := { b with subs := .empty, count := 0 }

end EventBus

/-! ### Calls under way -/

/-- How far a `subscribe` is: it has seen the bus closed, and is to close its own channel; it has seen
the bus open; it has an identifier; it has returned one. -/
inductive SubscribeCall where
  | called
  | refused
  | admitted
  | numbered (id : UInt64)
  | returned (id : UInt64)
deriving DecidableEq

/-- An `unsubscribe` that has taken a registration out is to close its channel. -/
inductive UnsubscribeCall where
  | called (id : UInt64)
  | removed (ch : ℕ)
  | returned
deriving DecidableEq

/-- A `close` that has set the flag is to close the channels. -/
inductive CloseCall where
  | called
  | swapped
  | returned
deriving DecidableEq

/-- A `subscribe` call and its channel. -/
structure Subscriber (P : Type*) where
  cap : ℕ
  kinds : EventKindMask
  buf : List (BusEvent P)
  closes : ℕ
  late : ℕ
  call : SubscribeCall

namespace Subscriber

variable {P : Type*}

def close (x : Subscriber P) : Subscriber P := { x with closes := x.closes + 1 }

/-- A send that does not wait. -/
def send (e : BusEvent P) (x : Subscriber P) : Subscriber P :=
  if 0 < x.closes then { x with late := x.late + 1 }
  else if x.buf.length < x.cap then { x with buf := x.buf ++ [e] }
  else x

/-- The send drops the event. -/
def drops (x : Subscriber P) : Bool := x.closes = 0 && x.cap ≤ x.buf.length

end Subscriber

/-- The bus, the calls on it and the channels. -/
structure EventRun (P : Type*) where
  bus : EventBus
  subscribers : List (Subscriber P)
  cancels : List UnsubscribeCall
  closers : List CloseCall
  eventsDropped : ℕ

namespace EventRun

variable {P : Type*}

def start : EventRun P := ⟨.new, [], [], [], 0⟩

def update (s : EventRun P) (i : ℕ) (f : Subscriber P → Subscriber P) : EventRun P :=
  { s with subscribers := s.subscribers.modify i f }

/-- The next step of a `subscribe` call. -/
def subscribe (s : EventRun P) (i : ℕ) (x : Subscriber P) : EventRun P :=
  match x.call with
  | .called => s.update i fun x ↦ { x with call := if s.bus.closed then .refused else .admitted }
  | .refused => s.update i fun x ↦ { x.close with call := .returned 0 }
  | .admitted =>
    { s with bus := { s.bus with nextID := s.bus.nextID + 1 } }.update i
      fun x ↦ { x with call := .numbered (s.bus.nextID + 1) }
  | .numbered id =>
    { s with bus := s.bus.register id ⟨i, x.kinds⟩ }.update i fun x ↦ { x with call := .returned id }
  | .returned _ => s

/-- The next step of an `unsubscribe` call. -/
def unsubscribe (s : EventRun P) (j : ℕ) : UnsubscribeCall → EventRun P
  | .called id =>
    if id = 0 then { s with cancels := s.cancels.set j .returned }
    else
      { s with
        bus := s.bus.remove id
        cancels := s.cancels.set j (match s.bus.subs.get id with
          | some sub => .removed sub.ch
          | none => .returned) }
  | .removed ch => { s with cancels := s.cancels.set j .returned }.update ch Subscriber.close
  | .returned => s

/-- `publish` to one registration. -/
def deliver (e : BusEvent P) (s : EventRun P) (sub : Subscription) : EventRun P :=
  if sub.kinds.has e.kind then
    { s.update sub.ch (Subscriber.send e) with
      eventsDropped := s.eventsDropped +
        if (s.subscribers[sub.ch]?.map Subscriber.drops).getD false then 1 else 0 }
  else s

def publish (s : EventRun P) (e : BusEvent P) : EventRun P := s.bus.subs.values.foldl (deliver e) s

/-- The next step of a `close` call. -/
def close (s : EventRun P) (k : ℕ) : CloseCall → EventRun P
  | .called =>
    if s.bus.closed then { s with closers := s.closers.set k .returned }
    else { s with bus := { s.bus with closed := true }, closers := s.closers.set k .swapped }
  | .swapped =>
    { s.bus.subs.values.foldl (fun s sub ↦ s.update sub.ch Subscriber.close) s with
      bus := s.bus.clear
      closers := s.closers.set k .returned }
  | .returned => s

/-- What happens next: a call begins, or takes its next step; or a reader takes an event. -/
inductive Act (P : Type*) where
  | callSubscribe (cap : ℕ) (kinds : List EventKind)
  | subscribe (i : ℕ)
  | callUnsubscribe (id : UInt64)
  | unsubscribe (j : ℕ)
  | publish (e : BusEvent P)
  | receive (i : ℕ)
  | callClose
  | close (k : ℕ)

def step (s : EventRun P) : Act P → EventRun P
  | .callSubscribe cap kinds =>
    { s with subscribers := s.subscribers ++
        [⟨cap, EventKindMask.kindMask kinds, [], 0, 0, .called⟩] }
  | .subscribe i =>
    match s.subscribers[i]? with
    | some x => s.subscribe i x
    | none => s
  | .callUnsubscribe id => { s with cancels := s.cancels ++ [.called id] }
  | .unsubscribe j =>
    match s.cancels[j]? with
    | some c => s.unsubscribe j c
    | none => s
  | .publish e => s.publish e
  | .receive i => s.update i fun x ↦ { x with buf := x.buf.tail }
  | .callClose => { s with closers := s.closers ++ [.called] }
  | .close k =>
    match s.closers[k]? with
    | some c => s.close k c
    | none => s

end EventRun

end Memcache
