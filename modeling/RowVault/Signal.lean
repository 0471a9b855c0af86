import RowVault.Event

/-!
# Traced computations

Besides its result, an operation leaves signals in the order in which they are given: events for the
sink, records for the log, and questions to filters that the host supplies. `Traced` pairs a result
with its signals; the laws below say what sequencing does to each of the two.
-/

namespace RowVault

/-- Something that the surroundings of a store notice. -/
inductive Signal where
  | event (e : Event)
  | record (r : LogRecord)
  /-- A filter of the host is asked about a row. -/
  | question
  deriving DecidableEq, Repr

/-- A result and the signals that were given on the way to it. -/
structure Traced (α : Type) where
  value : α
  signals : List Signal
  deriving Repr

namespace Traced

variable {α β : Type}

/-- The signals of one computation come before those of the next. -/
instance : Monad Traced where
  pure a := ⟨a, []⟩
  bind x f := ⟨(f x.value).value, x.signals ++ (f x.value).signals⟩

/-- Give signals and nothing else. -/
def tell (signals : List Signal) : Traced Unit := ⟨(), signals⟩

/-- Tell the sink of an event. -/
def notify (e : Event) : Traced Unit := tell [.event e]

/-- Write records to the log. -/
def log (records : List LogRecord) : Traced Unit := tell (records.map .record)

/-- A given value is returned. -/
@[simp] theorem value_pure (a : α) : (pure a : Traced α).value = a := rfl

/-- A given value signals nothing. -/
@[simp] theorem signals_pure (a : α) : (pure a : Traced α).signals = [] := rfl

/-- The result of a sequence is the result of its second part. -/
@[simp] theorem value_bind (x : Traced α) (f : α → Traced β) :
    (x >>= f).value = (f x.value).value := rfl

/-- A function is applied to the value. -/
@[simp] theorem value_map (f : α → β) (x : Traced α) : (f <$> x).value = f x.value := rfl

/-- The signals of a sequence are those of its parts, one after the other. -/
@[simp] theorem signals_bind (x : Traced α) (f : α → Traced β) :
    (x >>= f).signals = x.signals ++ (f x.value).signals := rfl

/-- Signals are joined in order, however computations are grouped. -/
instance : LawfulMonad Traced := .mk' _
  (fun ⟨value, signals⟩ ↦ congrArg (Traced.mk value) (List.append_nil signals))
  (fun _ _ ↦ rfl)
  (fun x f g ↦ congrArg (Traced.mk _)
    (List.append_assoc x.signals (f x.value).signals (g (f x.value).value).signals))

/-- The events among the signals. -/
def events (x : Traced α) : List Event :=
  x.signals.filterMap fun
    | .event e => some e
    | _ => none

/-- A given value comes without events. -/
@[simp] theorem events_pure (a : α) : (pure a : Traced α).events = [] := rfl

/-- A notice is the only event. -/
@[simp] theorem events_notify (e : Event) : (notify e).events = [e] := rfl

/-- The events of a sequence are those of its parts, one after the other. -/
@[simp] theorem events_bind (x : Traced α) (f : α → Traced β) :
    (x >>= f).events = x.events ++ (f x.value).events := by
  rw [events, signals_bind, List.filterMap_append]
  rfl

/-- Writing to the log is no event. -/
@[simp] theorem events_log (records : List LogRecord) : (log records).events = [] := by
  rw [events, log, tell, List.filterMap_map, List.filterMap_eq_nil_iff]
  exact fun _ _ ↦ rfl

/-- The log that the signals leave; every event leaves its record. -/
def records (x : Traced α) : List LogRecord :=
  x.signals.filterMap fun
    | .event e => some e.logRecord
    | .record r => some r
    | .question => none

/-- How often a filter of the host was asked. -/
def questions (x : Traced α) : Nat := x.signals.count .question

end Traced

end RowVault
