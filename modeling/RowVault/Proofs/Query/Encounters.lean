import RowVault.Proofs.Query.Selection

/-!
# The rows that a search meets

A search for rows in an index meets them in order. Each is hidden from the caller, refused by one of
the filters, or yielded, and the search rests at a row that it yields. What becomes of the rows is
judged by a single chain of filters, that of the call in front of that of the index.
-/

namespace RowVault

variable {T : Type}

/-! ## Fates -/

/-- What becomes of a row that is met. -/
inductive Fate where
  | hidden
  /-- One of the filters does not accept the row. -/
  | refused
  | yielded
  deriving DecidableEq, Repr

/-- A row that is met, with what becomes of it. -/
structure Encounter (T : Type) where
  row : StoredRow T
  fate : Fate

/-- How many of the rows that are met have a fate. -/
def Fate.count (fate : Fate) (met : List (Encounter T)) : Nat := met.countP (·.fate = fate)

/-- What becomes of rows that are met one after the other, and the filters afterwards. Hidden rows
are not shown to the filters. -/
def Filter.judge (model : IndexModel) (labels : Labels) :
    List Filter → List (StoredRow T) → List (Encounter T) × List Filter
  | chain, [] => ([], chain)
  | chain, r :: rest =>
    if r.isVisible labels then
      let asked := (askEvery (r.decoded model) chain).value
      let judged := judge model labels asked.2 rest
      (⟨r, if asked.1 then .yielded else .refused⟩ :: judged.1, judged.2)
    else
      let judged := judge model labels chain rest
      (⟨r, .hidden⟩ :: judged.1, judged.2)

/-- The rows that are met up to the last one of so many that are yielded. -/
def metUntil : Nat → List (Encounter T) → List (Encounter T)
  | 0, _ => []
  | _ + 1, [] => []
  | n + 1, m :: rest => m :: metUntil (if m.fate = .yielded then n else n + 1) rest

/-! ## Judging rows -/

section

variable {model : IndexModel} {labels : Labels} {r : StoredRow T} {rest : List (StoredRow T)}
  {chain chain' : List Filter}

/-- A hidden row is not shown to the filters. -/
theorem Filter.judge_cons_hidden (hv : r.isVisible labels = false) :
    judge model labels chain (r :: rest) =
      (⟨r, .hidden⟩ :: (judge model labels chain rest).1, (judge model labels chain rest).2) := by
  rw [judge, hv]
  rfl

/-- A row that a filter does not accept is refused. -/
theorem Filter.judge_cons_refused (hv : r.isVisible labels = true)
    (ha : (askEvery (r.decoded model) chain).value = (false, chain')) :
    judge model labels chain (r :: rest) =
      (⟨r, .refused⟩ :: (judge model labels chain' rest).1,
        (judge model labels chain' rest).2) := by
  rw [judge, hv, ha]
  rfl

/-- A row that all filters accept is yielded. -/
theorem Filter.judge_cons_yielded (hv : r.isVisible labels = true)
    (ha : (askEvery (r.decoded model) chain).value = (true, chain')) :
    judge model labels chain (r :: rest) =
      (⟨r, .yielded⟩ :: (judge model labels chain' rest).1,
        (judge model labels chain' rest).2) := by
  rw [judge, hv, ha]
  rfl

end

/-- Another row counts for its own fate. -/
@[simp] theorem Fate.count_cons (fate : Fate) (m : Encounter T) (met : List (Encounter T)) :
    fate.count (m :: met) = fate.count met + if m.fate = fate then 1 else 0 := by
  simp [count, List.countP_cons]

/-- Where no row is met, none has any fate. -/
@[simp] theorem Fate.count_nil (fate : Fate) : fate.count ([] : List (Encounter T)) = 0 := rfl

/-- Rows that are met one after the other are counted together. -/
@[simp] theorem Fate.count_append (fate : Fate) (met more : List (Encounter T)) :
    fate.count (met ++ more) = fate.count met + fate.count more := List.countP_append

/-- Every row that is met has one of the three fates. -/
theorem Fate.length_eq_sum (met : List (Encounter T)) :
    met.length = yielded.count met + hidden.count met + refused.count met := by
  induction met with
  | nil => rfl
  | cons m rest ih =>
    rw [List.length_cons, ih]
    cases hm : m.fate <;> simp [hm] <;> omega

/-- The rows that are yielded are those that the filters choose of the visible ones. -/
theorem Filter.choose_eq_judge (model : IndexModel) (labels : Labels) (chain : List Filter)
    (rows : List (StoredRow T)) :
    choose model chain (rows.filter (·.isVisible labels)) =
      (((judge model labels chain rows).1.filter (·.fate = .yielded)).map (·.row),
        (judge model labels chain rows).2) := by
  induction rows generalizing chain with
  | nil => rfl
  | cons r rest ih =>
    cases hv : r.isVisible labels with
    | false =>
      rw [judge_cons_hidden hv, List.filter_cons_of_neg (by simp [hv]), ih]
      rfl
    | true =>
      obtain ⟨accepted, chain', ha⟩ : ∃ accepted chain',
        (askEvery (r.decoded model) chain).value = (accepted, chain') := ⟨_, _, rfl⟩
      rw [List.filter_cons_of_pos hv, choose, ha, ih]
      cases accepted with
      | false =>
        rw [judge_cons_refused hv ha]
        rfl
      | true =>
        rw [judge_cons_yielded hv ha]
        rfl

/-- All rows are met, in their order. -/
theorem Filter.map_row_judge (model : IndexModel) (labels : Labels) (chain : List Filter)
    (rows : List (StoredRow T)) : (judge model labels chain rows).1.map (·.row) = rows := by
  induction rows generalizing chain with
  | nil => rfl
  | cons r rest ih =>
    rw [judge]
    split
    · exact congrArg (r :: ·) (ih _)
    · exact congrArg (r :: ·) (ih _)

/-- Just those rows are hidden that are not visible. -/
theorem Filter.hidden_judge (model : IndexModel) (labels : Labels) (chain : List Filter)
    (rows : List (StoredRow T)) :
    ∀ m ∈ (judge model labels chain rows).1, m.fate = .hidden ↔ m.row.isVisible labels = false := by
  induction rows generalizing chain with
  | nil => exact nofun
  | cons r rest ih =>
    rw [judge]
    cases hv : r.isVisible labels with
    | false =>
      refine List.forall_mem_cons.mpr ⟨?_, ih _⟩
      simp [hv]
    | true =>
      refine List.forall_mem_cons.mpr ⟨?_, ih _⟩
      simp only [hv]
      split <;> simp

/-! ## Looking for the next row -/

namespace IndexScan

/-- What a search for a row meets among the rows ahead. It counts them; if it finds no row, it has
met them all and none was yielded; otherwise the row is the last one that it has met and the only
one yielded, and the rows behind it are judged by the filters as the search leaves them. -/
structure Meets (labels : Labels) (scan : IndexScan T) (client : List Filter)
    (judged : List (Encounter T) × List Filter) (met : List (Encounter T)) (found : Sought T) :
    Prop where
  index : found.scan.index = scan.index
  scanned : found.scan.scanned = scan.scanned + met.length
  hidden : found.scan.hidden = scan.hidden + Fate.hidden.count met
  yielded : found.scan.yielded = scan.yielded + Fate.yielded.count met
  length : found.client.length = client.length
  none : found.row = none →
    judged.1 = met ∧ Fate.yielded.count met = 0 ∧ judged.2.take client.length = found.client
  some : ∀ r, found.row = some r → ∃ before, met = before ++ [⟨r, .yielded⟩] ∧
    Fate.yielded.count before = 0 ∧
      let behind := Filter.judge found.scan.index.model labels (found.client ++ found.scan.filters)
        found.scan.ahead
      judged = (met ++ behind.1, behind.2)

/-- A row that is not yielded is met before those behind it. -/
theorem Meets.cons {labels : Labels} {scan next : IndexScan T} {client client' : List Filter}
    {judged : List (Encounter T) × List Filter} {met : List (Encounter T)} {found : Sought T}
    (h : next.Meets labels client' judged met found) (m : Encounter T)
    (hindex : next.index = scan.index) (hscanned : next.scanned = scan.scanned + 1)
    (hhidden : next.hidden = scan.hidden + if m.fate = .hidden then 1 else 0)
    (hyielded : next.yielded = scan.yielded) (hfate : m.fate ≠ .yielded)
    (hlength : client'.length = client.length) :
    scan.Meets labels client (m :: judged.1, judged.2) (m :: met) found where
  index := h.index.trans hindex
  scanned := by rw [h.scanned, hscanned, List.length_cons]; omega
  hidden := by rw [h.hidden, hhidden, Fate.count_cons]; omega
  yielded := by rw [h.yielded, hyielded, Fate.count_cons, if_neg hfate, Nat.add_zero]
  length := h.length.trans hlength
  none hnone := by
    obtain ⟨hjudged, hcount, hclient⟩ := h.none hnone
    refine ⟨congrArg (m :: ·) hjudged, ?_, hlength ▸ hclient⟩
    rw [Fate.count_cons, hcount, if_neg hfate]
  some r hsome := by
    obtain ⟨before, hmet, hcount, hjudged⟩ := h.some r hsome
    refine ⟨m :: before, congrArg (m :: ·) hmet, ?_, ?_⟩
    · rw [Fate.count_cons, hcount, if_neg hfate]
    · rw [hjudged]
      rfl

/-- A search meets rows as the chain of all filters judges them. -/
theorem meets_seek (labels : Labels) (scan : IndexScan T) (client : List Filter)
    (rows : List (StoredRow T)) :
    ∃ met, scan.Meets labels client
      (Filter.judge scan.index.model labels (client ++ scan.filters) rows) met
      (scan.seek labels client rows).value := by
  induction rows generalizing scan client with
  | nil =>
    refine ⟨[], rfl, rfl, rfl, rfl, rfl, fun _ ↦ ⟨rfl, rfl, ?_⟩, nofun⟩
    exact List.take_left
  | cons r rest ih =>
    have hlength := Filter.length_askEvery (r.decoded scan.index.model) client
    rcases sift_cases scan.index.model labels client scan.filters r with
      hv | ⟨hv, client', ha⟩ | ⟨hv, client', own', ha, ho⟩ | ⟨hv, client', own', ha, ho⟩
    · obtain ⟨met, h⟩ := ih { scan with
        ahead := rest, scanned := scan.scanned + 1, hidden := scan.hidden + 1 } client
      rw [value_seek_cons_hidden hv, Filter.judge_cons_hidden hv]
      exact ⟨_, h.cons ⟨r, .hidden⟩ rfl rfl rfl rfl nofun rfl⟩
    · obtain ⟨met, h⟩ := ih { scan with ahead := rest, scanned := scan.scanned + 1 } client'
      rw [ha] at hlength
      have hchain : (Filter.askEvery (r.decoded scan.index.model) (client ++ scan.filters)).value =
          (false, client' ++ scan.filters) := by
        rw [Filter.askEvery_append, ha]
        rfl
      rw [value_seek_cons_refused hv ha, Filter.judge_cons_refused hv hchain]
      exact ⟨_, h.cons ⟨r, .refused⟩ rfl rfl rfl rfl nofun hlength⟩
    · obtain ⟨met, h⟩ := ih { scan with
        ahead := rest, scanned := scan.scanned + 1, filters := own' } client'
      rw [ha] at hlength
      have hchain : (Filter.askEvery (r.decoded scan.index.model) (client ++ scan.filters)).value =
          (false, client' ++ own') := by
        rw [Filter.askEvery_append, ha, ho]
        rfl
      rw [value_seek_cons_passed hv ha ho, Filter.judge_cons_refused hv hchain]
      exact ⟨_, h.cons ⟨r, .refused⟩ rfl rfl rfl rfl nofun hlength⟩
    · rw [ha] at hlength
      have hchain : (Filter.askEvery (r.decoded scan.index.model) (client ++ scan.filters)).value =
          (true, client' ++ own') := by
        rw [Filter.askEvery_append, ha, ho]
        rfl
      rw [value_seek_cons_kept hv ha ho, Filter.judge_cons_yielded hv hchain]
      refine ⟨[⟨r, .yielded⟩], rfl, rfl, rfl, rfl, hlength, nofun, ?_⟩
      intro q hq
      cases hq
      exact ⟨[], rfl, rfl, rfl⟩

end IndexScan

/-! ## Meeting rows up to the last one that is wanted -/

/-- If no row is wanted, none is met. -/
@[simp] theorem metUntil_zero (met : List (Encounter T)) : metUntil 0 met = [] := by
  cases met <;> rfl

/-- All rows are met if more are wanted than are yielded. -/
theorem metUntil_of_count_lt {n : Nat} {met : List (Encounter T)}
    (h : Fate.yielded.count met < n) : metUntil n met = met := by
  induction met generalizing n with
  | nil => cases n <;> rfl
  | cons m rest ih =>
    cases n with
    | zero => exact absurd h (Nat.not_lt_zero _)
    | succ n =>
      rw [Fate.count_cons] at h
      rw [metUntil, ih]
      split at h <;> simp_all

/-- A row that is yielded behind others that are not is the first one that is wanted. -/
theorem metUntil_append {before : List (Encounter T)} (h : Fate.yielded.count before = 0) (n : Nat)
    (r : StoredRow T) (more : List (Encounter T)) :
    metUntil (n + 1) (before ++ [⟨r, .yielded⟩] ++ more) =
      before ++ [⟨r, .yielded⟩] ++ metUntil n more := by
  induction before with
  | nil => rfl
  | cons m rest ih =>
    rw [Fate.count_cons] at h
    have hfate : m.fate ≠ .yielded := by
      intro hm
      rw [if_pos hm] at h
      omega
    rw [if_neg hfate] at h
    rw [List.cons_append, List.cons_append, metUntil, if_neg hfate, ih h]
    rfl

/-- The rows that are yielded are the first ones. -/
theorem filter_metUntil (n : Nat) (met : List (Encounter T)) :
    (metUntil n met).filter (·.fate = .yielded) = (met.filter (·.fate = .yielded)).take n := by
  induction met generalizing n with
  | nil => cases n <;> simp [metUntil]
  | cons m rest ih =>
    cases n with
    | zero => simp [metUntil]
    | succ n =>
      rw [metUntil]
      by_cases hm : m.fate = .yielded <;> simp [hm, ih]

/-- No more rows are yielded than are wanted. -/
theorem count_metUntil (n : Nat) (met : List (Encounter T)) :
    Fate.yielded.count (metUntil n met) = min n (Fate.yielded.count met) := by
  rw [Fate.count, Fate.count, List.countP_eq_length_filter, List.countP_eq_length_filter,
    filter_metUntil, List.length_take]

/-- Rows are met in their order, without a gap. -/
theorem metUntil_prefix (n : Nat) (met : List (Encounter T)) : metUntil n met <+: met := by
  induction met generalizing n with
  | nil => cases n <;> exact List.nil_prefix
  | cons m rest ih =>
    cases n with
    | zero => exact List.nil_prefix
    | succ n => exact (List.cons_prefix_cons).mpr ⟨rfl, ih _⟩

/-- Where as many rows are yielded as are wanted, the last row that is met is yielded. -/
theorem exists_last_metUntil {n : Nat} {met : List (Encounter T)}
    (h : n + 1 ≤ Fate.yielded.count met) :
    ∃ before r, metUntil (n + 1) met = before ++ [⟨r, .yielded⟩] := by
  induction met generalizing n with
  | nil => exact absurd h (Nat.not_succ_le_zero n)
  | cons m rest ih =>
    obtain ⟨r, fate⟩ := m
    rw [Fate.count_cons] at h
    by_cases hfate : fate = .yielded
    · subst hfate
      cases n with
      | zero => exact ⟨[], r, by simp [metUntil]⟩
      | succ n =>
        obtain ⟨before, q, hlast⟩ := ih (n := n) (Nat.le_of_succ_le_succ (by simpa using h))
        exact ⟨⟨r, .yielded⟩ :: before, q, by rw [metUntil]; simp [hlast]⟩
    · rw [if_neg hfate, Nat.add_zero] at h
      obtain ⟨before, q, hlast⟩ := ih h
      exact ⟨⟨r, fate⟩ :: before, q, by rw [metUntil, if_neg hfate, hlast]; rfl⟩

end RowVault
