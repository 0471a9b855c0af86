import RowVault.Store.Call
import RowVault.Store.Lookup

/-!
# Histories of a store

A store changes by registrations, ingests and deletions. A history is a list of such calls, and a
store is reachable if a history leads to it from a store without rows. What holds of a store without
rows and is kept by every call holds of every reachable store.
-/

namespace RowVault

namespace Store

variable {T : Type}

/-- The store after a history. -/
def after (s : Store T) (calls : List (Call T)) : Store T :=
  calls.foldl (fun s c ↦ (s.perform c).2) s

/-- What the calls of a history return, one after the other. -/
def replies (s : Store T) : List (Call T) → List (Reply T)
  | [] => []
  | c :: rest => (s.perform c).1 :: (s.perform c).2.replies rest

/-- A store without rows, whose statistics store is given. -/
def fresh (config : Config) (statistics : StatisticsStore) : Store T :=
  { config, ledger := { store := statistics } }

/-- A store to which a history leads. -/
def Reachable (s : Store T) : Prop :=
  ∃ config statistics calls, s = (fresh config statistics).after calls

/-- No calls leave a store as it is. -/
@[simp] theorem after_nil (s : Store T) : s.after [] = s := rfl

/-- The first call of a history is performed before the others. -/
@[simp] theorem after_cons (s : Store T) (c : Call T) (rest : List (Call T)) :
    s.after (c :: rest) = (s.perform c).2.after rest := rfl

/-- Histories are performed one after the other. -/
theorem after_append (s : Store T) (earlier later : List (Call T)) :
    s.after (earlier ++ later) = (s.after earlier).after later :=
  List.foldl_append

/-- What every call keeps is kept by every history. -/
theorem after_induction {P : Store T → Prop} (hstep : ∀ s c, P s → P (s.perform c).2)
    {s : Store T} (h : P s) (calls : List (Call T)) : P (s.after calls) := by
  induction calls generalizing s with
  | nil => exact h
  | cons c rest ih => exact ih (hstep s c h)

/-- What holds without rows and is kept by every call holds of every reachable store. -/
theorem Reachable.induction {P : Store T → Prop}
    (hfresh : ∀ config statistics, P (fresh config statistics))
    (hstep : ∀ s c, P s → P (s.perform c).2) {s : Store T} (h : s.Reachable) : P s := by
  obtain ⟨config, statistics, calls, rfl⟩ := h
  exact after_induction hstep (hfresh config statistics) calls

end Store

end RowVault
