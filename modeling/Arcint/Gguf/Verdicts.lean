import Arcint.Foundation.Delimited
import Arcint.Foundation.Machine
import Arcint.Foundation.SortBy
import Arcint.Gguf.Extent
import Arcint.Gguf.Repack

/-! # Repack verdicts

A tensor whose repack was checked leaves a verdict in a directory, and a load that finds the
verdict of its key checks nothing. The key is a hash of a text about the file, the tensor, the
bound and the packing; the column order is not in it, and of the bound there is what the
stream prints. The requests of a call are worked on by a pool, and one call follows another.
-/

namespace Arcint.Gguf.Verdicts

open Foundation Text

/-- `|`. -/
def bar : UInt8 := 124

/-- `x`. -/
def cross : UInt8 := 120

/-- The doubles of the check: `print` is what a stream writes at its default precision, and
`readBack` what it reads of a double written with seventeen digits. -/
structure Doubles (F : Type) where
  ofNat : ℕ → F
  add : F → F → F
  exceeds : F → F → Bool
  print : F → Bytes
  readBack : F → Option F
  print_plain : ∀ a, ∀ c ∈ print a, c ≠ bar ∧ c ≠ cross

/-- What is over one bound is over the other. -/
def Doubles.AtLeast {F : Type} (D : Doubles F) (bound lower : F) : Prop :=
  ∀ e, D.exceeds e bound = true → D.exceeds e lower = true

/-! ## Keys -/

structure FileStat where
  size : ℕ
  sec : ℤ
  nsec : ℕ

/-- A number as a stream writes it. -/
def decimal (n : ℕ) : Bytes := (Nat.toDigits 10 n).map fun c => c.toNat.toUInt8

def signedDecimal : ℤ → Bytes
  | .ofNat n => decimal n
  | .negSucc n => bytes "-" ++ decimal (n + 1)

/-- What the packing adds to the bound. -/
def verdictMinsOffset : RepackMins → ℕ
  | .exact => 0
  | .shared => 1000
  | .nibble => 2000
  | .split => 3000

def statText (stat : FileStat) : Bytes :=
  bytes "repack-v1|" ++ decimal stat.size ++ bar :: signedDecimal stat.sec ++
    bytes "." ++ decimal stat.nsec ++ [bar]

section Keys

variable {F : Type} (D : Doubles F)

def keyText (stat : FileStat) (t : TensorInfo) (bound : F) (mins : RepackMins) : Bytes :=
  statText stat ++ t.name ++ bar :: decimal t.offset ++ bar :: decimal t.ggmlType ++
    bar :: (D.print (D.add bound (D.ofNat (verdictMinsOffset mins))) ++
      fields cross decimal t.dims)

/-- FNV-1a over the key text. -/
def fnv1a (text : Bytes) : UInt64 :=
  text.foldl (fun h c => (h ^^^ c.toUInt64) * 1099511628211) 1469598103934665603

end Keys

/-! ## What the text determines -/

theorem digit_range {n : ℕ} {c : Char} (hc : c ∈ Nat.toDigits 10 n) :
    48 ≤ c.toNat ∧ c.toNat ≤ 57 :=
  Char.isDigit_iff_toNat.mp (Nat.isDigit_of_mem_toDigits (by decide) (by decide) hc)

theorem digit_toNat {n : ℕ} {c : Char} (hc : c ∈ Nat.toDigits 10 n) :
    (c.toNat.toUInt8).toNat = c.toNat := by
  have hrange := digit_range hc
  rw [Nat.toUInt8, UInt8.toNat_ofNat']
  exact Nat.mod_eq_of_lt (by omega)

theorem decimal_plain (n : ℕ) : ∀ c ∈ decimal n, c ≠ bar ∧ c ≠ cross := by
  intro c hc
  obtain ⟨digit, hdigit, rfl⟩ := List.mem_map.mp hc
  have hrange := digit_range hdigit
  rw [← digit_toNat hdigit] at hrange
  constructor
  all_goals
    intro h
    rw [h] at hrange
    exact absurd hrange.2 (by decide)

/-- The number is read back from its digits. -/
theorem decimal_injective : Function.Injective decimal := by
  apply Function.LeftInverse.injective (g := fun text =>
    Nat.ofDigitChars 10 (text.map fun b => Char.ofNat b.toNat) 0)
  intro n
  have hback : (decimal n).map (fun b => Char.ofNat b.toNat) = Nat.toDigits 10 n := by
    rw [decimal, List.map_map]
    refine (List.map_congr_left fun c hc => ?_).trans (List.map_id _)
    rw [Function.comp_apply, digit_toNat hc, Char.ofNat_toNat]
    rfl
  dsimp only
  rw [hback, Nat.ofDigitChars_ten_toDigits]

section Determines

variable {F : Type} {D : Doubles F} {stat : FileStat} {t t' : TensorInfo} {bound bound' : F}
  {mins mins' : RepackMins}

/-- The text determines the tensor, and the bound as it is printed with the packing added. -/
theorem keyText_injective (ht : t.Valid) (ht' : t'.Valid)
    (h : keyText D stat t bound mins = keyText D stat t' bound' mins') :
    t = t' ∧ D.print (D.add bound (D.ofNat (verdictMinsOffset mins))) =
      D.print (D.add bound' (D.ofNat (verdictMinsOffset mins'))) := by
  have hdims : ∀ dims, bar ∉ fields cross decimal dims := by
    intro dims hmem
    obtain ⟨d, -, hd⟩ := List.mem_flatMap.mp hmem
    rcases List.mem_cons.mp hd with heq | hd
    · exact absurd heq (by decide)
    · exact (decimal_plain d _ hd).1 rfl
  have hlast : ∀ a dims, bar ∉ D.print a ++ fields cross decimal dims := by
    intro a dims hmem
    rcases List.mem_append.mp hmem with hprint | hfields
    · exact (D.print_plain a _ hprint).1 rfl
    · exact hdims dims hfields
  have hdecimal : ∀ n, bar ∉ decimal n := fun n hmem => (decimal_plain n _ hmem).1 rfl
  obtain ⟨hrest, hbound⟩ := eq_of_sep_last (hlast _ _) (hlast _ _) h
  obtain ⟨hrest, htype⟩ := eq_of_sep_last (hdecimal _) (hdecimal _) hrest
  obtain ⟨hrest, hoffset⟩ := eq_of_sep_last (hdecimal _) (hdecimal _) hrest
  have hname := List.append_cancel_left hrest
  obtain ⟨hprint, hfields⟩ := eq_of_append_fields
    (fun hmem => (D.print_plain _ _ hmem).2 rfl) (fun hmem => (D.print_plain _ _ hmem).2 rfl) hbound
  have hsame := fields_injective (fun n hmem => (decimal_plain n _ hmem).2 rfl) decimal_injective
    hfields
  refine ⟨?_, hprint⟩
  -- the number of elements is computed from the dimensions
  have hcount := ht.count
  rw [hsame, ← ht'.count] at hcount
  cases t
  cases t'
  cases hname
  cases hsame
  cases hcount
  cases decimal_injective htype
  cases decimal_injective hoffset
  rfl

end Determines

/-! ## The check -/

/-- The repack of a file's tensors, and how far every value is off, in steps, row by row. -/
structure Repacker (F P : Type) where
  repack : TensorInfo → Option (List ℤ) → RepackMins → Except RepackError P
  steps : TensorInfo → P → List (List F)

structure RepackDeviation (F : Type) where
  maxSteps : F
  overBound : ℕ
  values : ℕ

section Check

variable {F P : Type} (D : Doubles F) (R : Repacker F P)

/-- `std::max`. -/
def Doubles.larger (a b : F) : F := if D.exceeds b a = true then b else a

def repackDeviation (t : TensorInfo) (packed : P) (stepFraction : F) : RepackDeviation F :=
  let rows := R.steps t packed
  { maxSteps := (rows.map fun row => row.foldl D.larger (D.ofNat 0)).foldl D.larger (D.ofNat 0)
    overBound := (rows.map fun row => row.countP fun e => D.exceeds e stepFraction).sum
    values := (rows.map List.length).sum }

variable {D R}

theorem over_eq_zero_iff {t : TensorInfo} {packed : P} {bound : F} :
    (repackDeviation D R t packed bound).overBound = 0 ↔
      ∀ row ∈ R.steps t packed, ∀ e ∈ row, D.exceeds e bound = false := by
  simp [repackDeviation, List.sum_eq_zero_iff_forall_eq_nat]

/-- What passes the lower bound passes the other. -/
theorem over_eq_zero_of_atLeast {t : TensorInfo} {packed : P} {bound lower : F}
    (hbounds : D.AtLeast bound lower) (h : (repackDeviation D R t packed lower).overBound = 0) :
    (repackDeviation D R t packed bound).overBound = 0 := by
  rw [over_eq_zero_iff] at h ⊢
  intro row hrow e he
  have hpass := h row hrow e he
  cases hover : D.exceeds e bound with
  | false => rfl
  | true => rw [hbounds e hover] at hpass; exact hpass

end Check

/-! ## The calls -/

/-- The packings whose deviation is refused. -/
def Refuses (mins : RepackMins) : Prop := mins = .exact ∨ mins = .split

instance (mins : RepackMins) : Decidable (Refuses mins) := inferInstanceAs (Decidable (_ ∨ _))

structure OpenFile where
  mapping : Mapping
  file : GgufFile
  opened : openGguf mapping = .ok file

abbrev OpenFile.Tensor (f : OpenFile) := { t : TensorInfo // t ∈ f.file.tensors }

/-- An empty column order is the file's. -/
structure RepackRequest (f : OpenFile) (F : Type) where
  tensor : Option f.Tensor
  columnDestOf : List ℤ
  bound : F

namespace RepackRequest

variable {f : OpenFile} {F : Type}

def dest (req : RepackRequest f F) : Option (List ℤ) :=
  if req.columnDestOf = [] then none else some req.columnDestOf

def size (req : RepackRequest f F) : ℤ :=
  match req.tensor with
  | some ⟨⟨_, d0 :: d1 :: _, _, _, _⟩, _⟩ => signed 8 d0 * signed 8 d1
  | _ => 0

end RepackRequest

structure RepackResult (F P : Type) where
  packed : P
  maxSteps : F
  overBound : ℕ
  checked : ℕ
  verdictCached : Bool

inductive Failure (F : Type) where
  | noTensor
  | repack (name : Bytes) (error : RepackError)
  | outsideBound (name : Bytes) (overBound : ℕ) (bound maxSteps : F)

structure Verdict (F : Type) where
  maxSteps : F
  values : ℕ

/-- The verdict files, by the hash that names them. -/
abbrev VerdictDir (F : Type) := UInt64 → Option (Verdict F)

/-- What the calls share. -/
structure Setting where
  openFile : OpenFile
  verdictDir : Bytes
  filePath : Bytes
  stat : Option FileStat
  hardwareConcurrency : ℕ

structure Call (f : OpenFile) (F : Type) where
  requests : List (RepackRequest f F)
  mins : RepackMins
  threads : ℕ

namespace Call

variable {f : OpenFile} {F : Type}

/-- The largest tensor first. -/
def order (call : Call f F) : List ℕ :=
  sortBy (fun i => -((call.requests[i]?).elim 0 RepackRequest.size))
    (List.range call.requests.length)

def actualWorkers (call : Call f F) (hardwareConcurrency : ℕ) : ℕ :=
  min (max 1 (if call.threads ≠ 0 then call.threads else hardwareConcurrency))
    (max call.requests.length 1)

end Call

/-- Where a request stands. -/
inductive Progress (F P : Type) where
  | waiting
  | taken
  | measured (packed : P) (dv : RepackDeviation F)
  | failed (failure : Failure F)
  | finished (result : RepackResult F P)

namespace Progress

variable {F P : Type}

/-- A worker is on it. -/
def busy : Progress F P → Bool
  | taken => true
  | measured _ _ => true
  | _ => false

/-- What a call returns when every request is settled: the first failure in the order of the
requests, or the results. -/
def collect : List (Progress F P) → Option (Except (Failure F) (List (RepackResult F P)))
  | [] => some (.ok [])
  | finished result :: rest => (collect rest).map (Except.map (result :: ·))
  | failed failure :: rest => (collect rest).map fun _ => .error failure
  | _ :: _ => none

end Progress

structure Pool (f : OpenFile) (F P : Type) where
  call : Call f F
  next : ℕ
  progress : List (Progress F P)

/-- What became of a verdict file: written, left as it was, or cut. -/
inductive Write where
  | done
  | kept
  | cut

inductive Event (f : OpenFile) (F : Type) where
  | enter (call : Call f F)
  | fetch
  | look (i : ℕ) (seen : Bool)
  | finish (i : ℕ) (write : Write)
  | leave

structure Session (f : OpenFile) (F P : Type) where
  dir : VerdictDir F
  pool : Option (Pool f F P)
  begun : List (Call f F)
  returned : List (Call f F × Except (Failure F) (List (RepackResult F P)))

section Machine

variable {F P : Type} (D : Doubles F) (R : Repacker F P) (S : Setting)

/-- The text of the key, none when the file has no path or no status. -/
def Setting.text (t : TensorInfo) (bound : F) (mins : RepackMins) : Option Bytes :=
  if S.filePath = [] then none else S.stat.map fun stat => keyText D stat t bound mins

def verdictKey (t : TensorInfo) (bound : F) (mins : RepackMins) : Option UInt64 :=
  (S.text D t bound mins).map fnv1a

def readVerdict (dir : VerdictDir F) (key : Option UInt64) : Option (Verdict F) :=
  if S.verdictDir = [] then none
  else do
    let verdict ← dir (← key)
    return { verdict with maxSteps := ← D.readBack verdict.maxSteps }

def writeVerdict (dir : VerdictDir F) (key : Option UInt64) (verdict : Verdict F)
    (write : Write) : VerdictDir F :=
  if S.verdictDir = [] then dir
  else
    match key, write with
    | some key, .done => Function.update dir key (some verdict)
    | some key, .cut => Function.update dir key none
    | _, _ => dir

/-- `process_one` up to the deviation. A verdict that is being written may go unseen. -/
def looked (dir : VerdictDir F) (mins : RepackMins) (seen : Bool)
    (req : RepackRequest S.openFile F) : Progress F P :=
  match req.tensor with
  | none => .failed .noTensor
  | some t =>
      match R.repack t.1 req.dest mins with
      | .error error => .failed (.repack t.1.name error)
      | .ok packed =>
          match if seen then readVerdict D S dir (verdictKey D S t.1 req.bound mins) else none with
          | some verdict =>
              .finished ⟨packed, verdict.maxSteps, 0, 0, true⟩
          | none => .measured packed (repackDeviation D R t.1 packed req.bound)

/-- The rest of `process_one`. -/
def finished (dir : VerdictDir F) (mins : RepackMins) (write : Write)
    (req : RepackRequest S.openFile F) (t : TensorInfo) (packed : P) (dv : RepackDeviation F) :
    VerdictDir F × Progress F P :=
  if dv.overBound ≠ 0 ∧ Refuses mins then
    (dir, .failed (.outsideBound t.name dv.overBound req.bound dv.maxSteps))
  else
    (writeVerdict S dir (verdictKey D S t req.bound mins) ⟨dv.maxSteps, dv.values⟩ write,
      .finished ⟨packed, dv.maxSteps, dv.overBound, dv.values, false⟩)

/-- The workers of a call take requests off its order, look for a verdict and leave one. -/
def ggufRepackAll : Machine (Session S.openFile F P) (Event S.openFile F) where
  step s
    | .enter call =>
        match s.pool with
        | some _ => none
        | none => some { s with
            pool := some ⟨call, 0, List.replicate call.requests.length .waiting⟩
            begun := s.begun ++ [call] }
    | .fetch => do
        let pool ← s.pool
        if pool.progress.countP Progress.busy < pool.call.actualWorkers S.hardwareConcurrency then
          let i ← pool.call.order[pool.next]?
          return { s with
            pool := some { pool with
              next := pool.next + 1
              progress := pool.progress.set i .taken } }
        else none
    | .look i seen => do
        let pool ← s.pool
        let req ← pool.call.requests[i]?
        match pool.progress[i]? with
        | some .taken =>
            return { s with
              pool := some { pool with
                progress := pool.progress.set i (looked D R S s.dir pool.call.mins seen req) } }
        | _ => none
    | .finish i write => do
        let pool ← s.pool
        let req ← pool.call.requests[i]?
        let t ← req.tensor
        match pool.progress[i]? with
        | some (.measured packed dv) =>
            let (dir, progress) := finished D S s.dir pool.call.mins write req t.1 packed dv
            return { s with
              dir := dir
              pool := some { pool with progress := pool.progress.set i progress } }
        | _ => none
    | .leave => do
        let pool ← s.pool
        let outcome ← Progress.collect pool.progress
        return { s with pool := none, returned := s.returned ++ [(pool.call, outcome)] }

/-- An empty directory, before the first call. -/
def Session.start : Session S.openFile F P := ⟨fun _ => none, none, [], []⟩

end Machine

/-! ## What a step does -/

section Steps

variable {F P : Type} {D : Doubles F} {R : Repacker F P} {S : Setting}
  {s next : Session S.openFile F P}

theorem enter_some {call : Call S.openFile F}
    (h : (ggufRepackAll D R S).step s (.enter call) = some next) :
    s.pool = none ∧ next = { s with
      pool := some ⟨call, 0, List.replicate call.requests.length .waiting⟩
      begun := s.begun ++ [call] } := by
  simp only [ggufRepackAll] at h
  split at h
  next => cases h
  next hpool => exact ⟨hpool, (Option.some.inj h).symm⟩

theorem fetch_some (h : (ggufRepackAll D R S).step s .fetch = some next) :
    ∃ pool i, s.pool = some pool ∧ pool.call.order[pool.next]? = some i ∧ next = { s with
      pool := some { pool with
        next := pool.next + 1
        progress := pool.progress.set i .taken } } := by
  simp only [ggufRepackAll, Option.bind_eq_bind, Option.bind_eq_some_iff] at h
  obtain ⟨pool, hpool, h⟩ := h
  split at h
  next =>
    obtain ⟨i, hi, h⟩ := Option.bind_eq_some_iff.mp h
    exact ⟨pool, i, hpool, hi, (Option.some.inj h).symm⟩
  next => cases h

theorem look_some {i : ℕ} {seen : Bool}
    (h : (ggufRepackAll D R S).step s (.look i seen) = some next) :
    ∃ pool req, s.pool = some pool ∧ pool.call.requests[i]? = some req ∧ next = { s with
      pool := some { pool with
        progress := pool.progress.set i (looked D R S s.dir pool.call.mins seen req) } } := by
  simp only [ggufRepackAll, Option.bind_eq_bind, Option.bind_eq_some_iff] at h
  obtain ⟨pool, hpool, req, hreq, h⟩ := h
  split at h
  next => exact ⟨pool, req, hpool, hreq, (Option.some.inj h).symm⟩
  next => cases h

theorem finish_some {i : ℕ} {write : Write}
    (h : (ggufRepackAll D R S).step s (.finish i write) = some next) :
    ∃ pool req t packed dv, s.pool = some pool ∧ pool.call.requests[i]? = some req ∧
      req.tensor = some t ∧ pool.progress[i]? = some (.measured packed dv) ∧ next = { s with
        dir := (finished D S s.dir pool.call.mins write req t.1 packed dv).1
        pool := some { pool with
          progress := pool.progress.set i
            (finished D S s.dir pool.call.mins write req t.1 packed dv).2 } } := by
  simp only [ggufRepackAll, Option.bind_eq_bind, Option.bind_eq_some_iff] at h
  obtain ⟨pool, hpool, req, hreq, t, ht, h⟩ := h
  split at h
  next packed dv hprogress =>
    exact ⟨pool, req, t, packed, dv, hpool, hreq, ht, hprogress, (Option.some.inj h).symm⟩
  next => cases h

theorem leave_some (h : (ggufRepackAll D R S).step s .leave = some next) :
    ∃ pool outcome, s.pool = some pool ∧ Progress.collect pool.progress = some outcome ∧
      next = { s with pool := none, returned := s.returned ++ [(pool.call, outcome)] } := by
  simp only [ggufRepackAll, Option.bind_eq_bind, Option.bind_eq_some_iff] at h
  obtain ⟨pool, hpool, outcome, houtcome, h⟩ := h
  exact ⟨pool, outcome, hpool, houtcome, (Option.some.inj h).symm⟩

/-- Results are returned when every request has one, each in its place. -/
theorem Progress.collect_ok {progress : List (Progress F P)} {results : List (RepackResult F P)}
    (h : Progress.collect progress = some (.ok results)) :
    progress = results.map .finished := by
  induction progress generalizing results with
  | nil =>
      cases h
      rfl
  | cons first rest ih =>
      cases first with
      | finished result =>
          obtain ⟨outcome, houtcome, h⟩ := Option.map_eq_some_iff.mp h
          cases outcome with
          | error failure => cases h
          | ok results' =>
              cases h
              rw [ih houtcome, List.map_cons]
      | failed failure =>
          obtain ⟨outcome, -, h⟩ := Option.map_eq_some_iff.mp h
          cases h
      | waiting => cases h
      | taken => cases h
      | measured packed dv => cases h

end Steps

/-! ## Whose verdict it is -/

section Stale

variable {F P : Type} (D : Doubles F) (R : Repacker F P) (S : Setting)

/-- The values of a result are within the bound of its own request. -/
def Fresh (call : Call S.openFile F) (i : ℕ) (result : RepackResult F P) : Prop :=
  ∃ req t, call.requests[i]? = some req ∧ req.tensor = some t ∧
    (repackDeviation D R t.1 result.packed req.bound).overBound = 0

/-- No verdict that stood in for a check was stale. -/
def NeverStale (s : Session S.openFile F P) : Prop :=
  ∀ call results, (call, Except.ok results) ∈ s.returned → Refuses call.mins →
    ∀ i result, results[i]? = some result → result.verdictCached = true →
      Fresh D R S call i result

/-- A request of the call has the key text. -/
structure Asks (call : Call S.openFile F) (req : RepackRequest S.openFile F)
    (t : S.openFile.Tensor) (text : Bytes) : Prop where
  mem : req ∈ call.requests
  tensor : req.tensor = some t
  text : S.text D t.1 req.bound call.mins = some text

/-- A request with the key text of a request that is checked asks for the same column order and
packing, and is held to a bound that is no higher. -/
def KeepsApart (call : Call S.openFile F) (calls : List (Call S.openFile F)) : Prop :=
  Refuses call.mins → ∀ req t text, Asks D S call req t text →
    ∀ other ∈ calls, ∀ req' t', Asks D S other req' t' text →
      req'.columnDestOf = req.columnDestOf ∧ other.mins = call.mins ∧
        D.AtLeast req.bound req'.bound

/-- The calls so far, and the one that begins, keep apart. -/
def Distinct (s : Session S.openFile F P) : Event S.openFile F → Prop
  | .enter call => KeepsApart D S call (s.begun ++ [call])
  | _ => True

/-- The key texts of a run. -/
def keyTexts (events : List (Event S.openFile F)) : Set Bytes :=
  { text | ∃ call req t, .enter call ∈ events ∧ Asks D S call req t text }

/-- Some request under the key was repacked, and passed where it had to. -/
def Vouched (calls : List (Call S.openFile F)) (key : UInt64) : Prop :=
  ∃ call ∈ calls, ∃ req t text packed, Asks D S call req t text ∧ fnv1a text = key ∧
    R.repack t.1 req.dest call.mins = .ok packed ∧
      (Refuses call.mins → (repackDeviation D R t.1 packed req.bound).overBound = 0)

/-- What the progress of a request says of it. -/
def Proper (call : Call S.openFile F) (i : ℕ) : Progress F P → Prop
  | .measured packed dv => ∃ req t, call.requests[i]? = some req ∧ req.tensor = some t ∧
      R.repack t.1 req.dest call.mins = .ok packed ∧ dv = repackDeviation D R t.1 packed req.bound
  | .finished result => Refuses call.mins → result.verdictCached = true → Fresh D R S call i result
  | _ => True

structure PoolProper (calls : List (Call S.openFile F)) (pool : Pool S.openFile F P) : Prop where
  mem : pool.call ∈ calls
  apart : KeepsApart D S pool.call calls
  proper : ∀ i progress, pool.progress[i]? = some progress → Proper D R S pool.call i progress

/-- What every run of calls that keep apart keeps. -/
structure Backed (events : List (Event S.openFile F)) (s : Session S.openFile F P) : Prop where
  known : ∀ call ∈ s.begun, .enter call ∈ events
  dir : ∀ key verdict, s.dir key = some verdict → Vouched D R S s.begun key
  pool : ∀ pool, s.pool = some pool → PoolProper D R S s.begun pool
  returned : NeverStale D R S s

variable {D R S}

theorem Vouched.mono {calls more : List (Call S.openFile F)} {key : UInt64}
    (h : Vouched D R S calls key) : Vouched D R S (calls ++ more) key := by
  obtain ⟨call, hcall, h⟩ := h
  exact ⟨call, List.mem_append_left _ hcall, h⟩

theorem text_injective {t t' : S.openFile.Tensor} {bound bound' : F} {mins mins' : RepackMins}
    {text : Bytes} (h : S.text D t.1 bound mins = some text)
    (h' : S.text D t'.1 bound' mins' = some text) : t = t' := by
  unfold Setting.text at h h'
  split at h
  next => cases h
  next hpath =>
    rw [if_neg hpath] at h'
    obtain ⟨stat, hstat, rfl⟩ := Option.map_eq_some_iff.mp h
    rw [hstat] at h'
    have hvalid := fun t : S.openFile.Tensor => valid_of_open S.openFile.opened t.2
    exact Subtype.ext
      (keyText_injective (hvalid t) (hvalid t') (Option.some.inj h').symm).1

theorem readVerdict_some {dir : VerdictDir F} {key : Option UInt64} {verdict : Verdict F}
    (h : readVerdict D S dir key = some verdict) :
    ∃ hash stored, key = some hash ∧ dir hash = some stored := by
  unfold readVerdict at h
  split at h
  next => cases h
  next =>
    obtain ⟨hash, hkey, h⟩ := Option.bind_eq_some_iff.mp h
    obtain ⟨stored, hstored, -⟩ := Option.bind_eq_some_iff.mp h
    exact ⟨hash, stored, hkey, hstored⟩

theorem writeVerdict_some {dir : VerdictDir F} {key : Option UInt64} {hash : UInt64}
    {verdict stored : Verdict F} {write : Write}
    (h : writeVerdict S dir key verdict write hash = some stored) :
    dir hash = some stored ∨ key = some hash := by
  unfold writeVerdict at h
  split at h
  next => exact .inl h
  next =>
    split at h
    next written =>
      by_cases heq : hash = written
      · exact .inr (congrArg some heq.symm)
      · rw [Function.update_of_ne heq] at h
        exact .inl h
    next written =>
      by_cases heq : hash = written
      · exact .inr (congrArg some heq.symm)
      · rw [Function.update_of_ne heq] at h
        exact .inl h
    next => exact .inl h

/-- Two requests under one key: the verdict of the one is right about the other. -/
theorem fresh_of_vouched {events : List (Event S.openFile F)} {calls : List (Call S.openFile F)}
    {call : Call S.openFile F} {req : RepackRequest S.openFile F} {t : S.openFile.Tensor}
    {text : Bytes} {packed : P} (hhash : Set.InjOn fnv1a (keyTexts D S events))
    (hknown : ∀ call ∈ calls, .enter call ∈ events) (hcall : call ∈ calls)
    (hapart : KeepsApart D S call calls) (hmins : Refuses call.mins)
    (hasks : Asks D S call req t text) (hrepack : R.repack t.1 req.dest call.mins = .ok packed)
    (hvouched : Vouched D R S calls (fnv1a text)) :
    (repackDeviation D R t.1 packed req.bound).overBound = 0 := by
  obtain ⟨other, hother, req', t', text', packed', hasks', hkey, hrepack', hpassed⟩ := hvouched
  -- one hash, one text, since no two texts of the run share a hash
  have htext : text' = text := hhash ⟨other, req', t', hknown other hother, hasks'⟩
    ⟨call, req, t, hknown call hcall, hasks⟩ hkey
  rw [htext] at hasks'
  obtain ⟨hdest, hsame, hbounds⟩ := hapart hmins req t text hasks other hother req' t' hasks'
  have ht := text_injective hasks'.text hasks.text
  -- the repack is of the same tensor, in the same order and packing
  have hpacked : packed' = packed := by
    rw [ht, hsame, RepackRequest.dest, hdest] at hrepack'
    exact Except.ok.inj (hrepack'.symm.trans hrepack)
  rw [ht, hpacked] at hpassed
  exact over_eq_zero_of_atLeast hbounds (hpassed (hsame ▸ hmins))

/-- A look finds what is right about its own request, or measures it. -/
theorem looked_proper {events : List (Event S.openFile F)} {s : Session S.openFile F P}
    {pool : Pool S.openFile F P} {i : ℕ} {req : RepackRequest S.openFile F} (seen : Bool)
    (hhash : Set.InjOn fnv1a (keyTexts D S events)) (hs : Backed D R S events s)
    (hpool : s.pool = some pool) (hreq : pool.call.requests[i]? = some req) :
    Proper D R S pool.call i (looked D R S s.dir pool.call.mins seen req) := by
  obtain ⟨hmem, hapart, -⟩ := hs.pool pool hpool
  unfold looked
  split
  next => exact trivial
  next t ht =>
    split
    next => exact trivial
    next packed hrepack =>
      split
      next verdict hread =>
        intro hmins _
        split at hread
        next =>
          obtain ⟨hash, stored, hkey, hstored⟩ := readVerdict_some hread
          obtain ⟨text, htext, rfl⟩ := Option.map_eq_some_iff.mp hkey
          have hasks : Asks D S pool.call req t text := ⟨List.mem_of_getElem? hreq, ht, htext⟩
          exact ⟨req, t, hreq, ht, fresh_of_vouched hhash hs.known hmem hapart hmins hasks hrepack
            (hs.dir _ _ hstored)⟩
        next => cases hread
      next => exact ⟨req, t, hreq, ht, hrepack, rfl⟩

/-- What is left behind is vouched for, and what is returned was measured. -/
theorem finished_proper {calls : List (Call S.openFile F)} {dir : VerdictDir F}
    {call : Call S.openFile F} {i : ℕ} {req : RepackRequest S.openFile F} {t : S.openFile.Tensor}
    {packed : P} {dv : RepackDeviation F} (write : Write)
    (hdir : ∀ key verdict, dir key = some verdict → Vouched D R S calls key)
    (hcall : call ∈ calls) (hreq : call.requests[i]? = some req) (ht : req.tensor = some t)
    (hmeasured : Proper D R S call i (.measured packed dv)) :
    (∀ key verdict, (finished D S dir call.mins write req t.1 packed dv).1 key = some verdict →
        Vouched D R S calls key) ∧
      Proper D R S call i (finished D S dir call.mins write req t.1 packed dv).2 := by
  obtain ⟨req', t', hreq', ht', hrepack, hdv⟩ := hmeasured
  obtain rfl : req = req' := Option.some.inj (hreq.symm.trans hreq')
  obtain rfl : t = t' := Option.some.inj (ht.symm.trans ht')
  unfold finished
  split
  next => exact ⟨hdir, trivial⟩
  next hover =>
    refine ⟨fun key verdict hkey => ?_, fun _ hcached => absurd hcached Bool.false_ne_true⟩
    rcases writeVerdict_some hkey with hbefore | hwritten
    · exact hdir key verdict hbefore
    · obtain ⟨text, htext, hhash⟩ := Option.map_eq_some_iff.mp hwritten
      refine ⟨call, hcall, req, t, text, packed, ⟨List.mem_of_getElem? hreq, ht, htext⟩, hhash,
        hrepack, fun hmins => ?_⟩
      -- a request over its bound is refused here and leaves no verdict
      by_contra hne
      exact hover ⟨hdv ▸ hne, hmins⟩

theorem PoolProper.set {calls : List (Call S.openFile F)} {pool : Pool S.openFile F P} {i n : ℕ}
    {progress : Progress F P} (h : PoolProper D R S calls pool)
    (hprogress : Proper D R S pool.call i progress) :
    PoolProper D R S calls ⟨pool.call, n, pool.progress.set i progress⟩ where
  mem := h.mem
  apart := h.apart
  proper := by
    intro j other hother
    rw [List.getElem?_set] at hother
    split at hother
    next heq =>
      split at hother
      next =>
        cases hother
        exact heq ▸ hprogress
      next => cases hother
    next => exact h.proper j other hother

theorem start_backed (events : List (Event S.openFile F)) :
    Backed D R S events (Session.start S : Session S.openFile F P) where
  known := by simp [Session.start]
  dir := by simp [Session.start]
  pool := by simp [Session.start]
  returned := by simp [NeverStale, Session.start]

/-- The step lemma. -/
theorem step_backed {events : List (Event S.openFile F)} {s next : Session S.openFile F P}
    {event : Event S.openFile F} (hhash : Set.InjOn fnv1a (keyTexts D S events))
    (hs : Backed D R S events s) (hdistinct : Distinct D S s event) (hmem : event ∈ events)
    (hstep : (ggufRepackAll D R S).step s event = some next) : Backed D R S events next := by
  cases event with
  | enter call =>
      obtain ⟨hpool, rfl⟩ := enter_some hstep
      refine ⟨?_, fun key verdict h => (hs.dir key verdict h).mono, ?_, hs.returned⟩
      · intro other hother
        rcases List.mem_append.mp hother with hother | hother
        · exact hs.known other hother
        · cases List.mem_singleton.mp hother
          exact hmem
      · intro pool h
        cases h
        refine ⟨List.mem_append_right _ List.mem_cons_self, hdistinct, fun i progress h => ?_⟩
        rw [List.getElem?_replicate] at h
        split at h
        next =>
          cases h
          exact trivial
        next => cases h
  | fetch =>
      obtain ⟨pool, i, hpool, -, rfl⟩ := fetch_some hstep
      refine ⟨hs.known, hs.dir, ?_, hs.returned⟩
      intro pool' h
      cases h
      exact (hs.pool pool hpool).set trivial
  | look i seen =>
      obtain ⟨pool, req, hpool, hreq, rfl⟩ := look_some hstep
      refine ⟨hs.known, hs.dir, ?_, hs.returned⟩
      intro pool' h
      cases h
      exact (hs.pool pool hpool).set (looked_proper seen hhash hs hpool hreq)
  | finish i write =>
      obtain ⟨pool, req, t, packed, dv, hpool, hreq, ht, hprogress, rfl⟩ := finish_some hstep
      have hproper := hs.pool pool hpool
      obtain ⟨hdir, hset⟩ := finished_proper write hs.dir hproper.mem hreq ht
        (hproper.proper i _ hprogress)
      refine ⟨hs.known, hdir, ?_, hs.returned⟩
      intro pool' h
      cases h
      exact hproper.set hset
  | leave =>
      obtain ⟨pool, outcome, hpool, houtcome, rfl⟩ := leave_some hstep
      refine ⟨hs.known, hs.dir, fun _ h => absurd h (Option.some_ne_none _).symm, ?_⟩
      intro call results hreturned hmins i result hresult hcached
      rcases List.mem_append.mp hreturned with hbefore | hnow
      · exact hs.returned call results hbefore hmins i result hresult hcached
      · cases List.mem_singleton.mp hnow
        have hprogress : pool.progress[i]? = some (.finished result) := by
          rw [Progress.collect_ok houtcome, List.getElem?_map, hresult]
          rfl
        exact (hs.pool pool hpool).proper i _ hprogress hmins hcached

/-- The run lemma. -/
theorem run_backed {events : List (Event S.openFile F)} {last : Session S.openFile F P}
    (hhash : Set.InjOn fnv1a (keyTexts D S events))
    (hmeets : (ggufRepackAll D R S).Meets (Distinct D S) (Session.start S) events)
    (hrun : (ggufRepackAll D R S).run (Session.start S) events = some last) :
    Backed D R S events last := by
  -- the events of a run are among its events, which `known` needs
  have hboth := Machine.meets_and hmeets
    ((ggufRepackAll D R S).meets_of_mem (fun event hevent _ => hevent) (Session.start S))
  exact Machine.run_invariant (fun s event next hs hallowed hstep =>
    step_backed hhash hs hallowed.1 hallowed.2 hstep) (start_backed events) hboth hrun

end Stale

/-! ## Two requests under one key -/

section Twice

variable {F P : Type} {D : Doubles F} {R : Repacker F P} {S : Setting}
  {s : Session S.openFile F P} {req req' : RepackRequest S.openFile F}
  {t : S.openFile.Tensor} {packed packed' : P} {mins : RepackMins}

/-- A request that is measured and leaves its verdict. -/
def missed (call : Call S.openFile F) : List (Event S.openFile F) :=
  [.enter call, .fetch, .look 0 true, .finish 0 .done, .leave]

/-- A request that finds a verdict. -/
def hit (call : Call S.openFile F) : List (Event S.openFile F) :=
  [.enter call, .fetch, .look 0 true, .leave]

/-- A call of one request, which has one worker. -/
def lone (mins : RepackMins) (req : RepackRequest S.openFile F) : Call S.openFile F :=
  ⟨[req], mins, 0⟩

theorem lone_order : (lone mins req).order[0]? = some 0 := rfl

theorem lone_actualWorkers : 0 < (lone mins req).actualWorkers S.hardwareConcurrency := by
  simp [Call.actualWorkers, lone]

theorem run_hit {verdict : Verdict F} (hpool : s.pool = none) (ht : req.tensor = some t)
    (hrepack : R.repack t.1 req.dest mins = .ok packed)
    (hread : readVerdict D S s.dir (verdictKey D S t.1 req.bound mins) = some verdict) :
    (ggufRepackAll D R S).run s (hit (lone mins req)) = some { s with
      begun := s.begun ++ [lone mins req]
      returned := s.returned ++
        [(lone mins req, .ok [⟨packed, verdict.maxSteps, 0, 0, true⟩])] } := by
  have horder : (lone mins req).order[0]? = some 0 := lone_order
  have hworkers : 0 < (lone mins req).actualWorkers S.hardwareConcurrency := lone_actualWorkers
  have hlone : (lone mins req).requests = [req] ∧ (lone mins req).mins = mins := ⟨rfl, rfl⟩
  simp [hit, Machine.run, ggufRepackAll, hpool, horder, hworkers, hlone, looked, ht, hrepack,
    hread, Progress.collect, Progress.busy, Except.map]

/-- A verdict that was written is read. -/
theorem readVerdict_writeVerdict {dir : VerdictDir F} {hash : UInt64} {verdict : Verdict F} {e : F}
    (hdir : S.verdictDir ≠ []) (hback : D.readBack verdict.maxSteps = some e) :
    readVerdict D S (writeVerdict S dir (some hash) verdict .done) (some hash) =
      some { verdict with maxSteps := e } := by
  simp [readVerdict, writeVerdict, hdir, hback]

variable {text : Bytes} (hdir : S.verdictDir ≠ []) (ht : req.tensor = some t)
  (htext : S.text D t.1 req.bound mins = some text)
  (hrepack : R.repack t.1 req.dest mins = .ok packed)
  (hover : (repackDeviation D R t.1 packed req.bound).overBound = 0)
  (hback : (D.readBack (repackDeviation D R t.1 packed req.bound).maxSteps).isSome = true)

include hdir ht htext hrepack hover hback

theorem run_missed (hpool : s.pool = none)
    (hread : readVerdict D S s.dir (some (fnv1a text)) = none) :
    ∃ next verdict, (ggufRepackAll D R S).run s (missed (lone mins req)) = some next ∧
      next.pool = none ∧ next.begun = s.begun ++ [lone mins req] ∧
        readVerdict D S next.dir (some (fnv1a text)) = some verdict := by
  have horder : (lone mins req).order[0]? = some 0 := lone_order
  have hworkers : 0 < (lone mins req).actualWorkers S.hardwareConcurrency := lone_actualWorkers
  have hlone : (lone mins req).requests = [req] ∧ (lone mins req).mins = mins := ⟨rfl, rfl⟩
  have hkey : verdictKey D S t.1 req.bound mins = some (fnv1a text) := by
    rw [verdictKey, htext, Option.map_some]
  obtain ⟨e, he⟩ := Option.isSome_iff_exists.mp hback
  generalize hdv : repackDeviation D R t.1 packed req.bound = dv at *
  refine ⟨{ s with
    dir := writeVerdict S s.dir (some (fnv1a text)) ⟨dv.maxSteps, dv.values⟩ .done
    begun := s.begun ++ [lone mins req]
    returned := s.returned ++
      [(lone mins req, .ok [⟨packed, dv.maxSteps, dv.overBound, dv.values, false⟩])] },
    ⟨e, dv.values⟩, ?_, hpool, rfl, readVerdict_writeVerdict hdir he⟩
  simp [missed, Machine.run, ggufRepackAll, hpool, horder, hworkers, hlone, looked, ht, hrepack,
    hkey, hread, finished, hdv, hover, Progress.collect, Progress.busy, Except.map]

omit hdir ht htext hrepack hover hback in
/-- The calls a run enters. -/
theorem meets_enter {call : Call S.openFile F} {events : List (Event S.openFile F)}
    (hapart : KeepsApart D S call (s.begun ++ [call]))
    (hrest : ∀ event ∈ events, ∀ other, event ≠ .enter other) :
    (ggufRepackAll D R S).Meets (Distinct D S) s (.enter call :: events) := by
  refine ⟨hapart, fun next _ => Machine.meets_of_mem _ (fun event hevent s => ?_) next⟩
  cases event with
  | enter other => exact absurd rfl (hrest _ hevent other)
  | fetch => exact trivial
  | look i seen => exact trivial
  | finish i write => exact trivial
  | leave => exact trivial

/-- A request is answered with the verdict of the one before it that has its key text. -/
theorem run_twice {packed' : P} {req' : RepackRequest S.openFile F} (ht' : req'.tensor = some t)
    (htext' : S.text D t.1 req'.bound mins = some text)
    (hrepack' : R.repack t.1 req'.dest mins = .ok packed') :
    ∃ mid last e,
      (ggufRepackAll D R S).run (Session.start S) (missed (lone mins req)) = some mid ∧
      mid.begun = [lone mins req] ∧
      (ggufRepackAll D R S).run (Session.start S)
        (missed (lone mins req) ++ hit (lone mins req')) = some last ∧
      (lone mins req', .ok [⟨packed', e, 0, 0, true⟩]) ∈ last.returned := by
  have hnone : readVerdict D S (Session.start S : Session S.openFile F P).dir
      (some (fnv1a text)) = none := by
    simp [readVerdict, Session.start]
  obtain ⟨mid, verdict, hmid, hpool, hbegun, hread⟩ :=
    run_missed hdir ht htext hrepack hover hback rfl hnone
  have hkey : verdictKey D S t.1 req'.bound mins = some (fnv1a text) := by
    rw [verdictKey, htext', Option.map_some]
  rw [← hkey] at hread
  have hlast := run_hit hpool ht' hrepack' hread
  refine ⟨mid, _, verdict.maxSteps, hmid, hbegun, (Machine.run_append _ hmid).trans hlast, ?_⟩
  exact List.mem_append_right _ List.mem_cons_self

omit hdir hrepack hover hback in
theorem keyTexts_twice {req' : RepackRequest S.openFile F} (ht' : req'.tensor = some t)
    (htext' : S.text D t.1 req'.bound mins = some text) :
    Set.InjOn fnv1a (keyTexts D S (missed (lone mins req) ++ hit (lone mins req'))) := by
  have hone : ∀ other ∈ keyTexts D S (missed (lone mins req) ++ hit (lone mins req')),
      other = text := by
    rintro other ⟨call, asked, t', henter, hasks⟩
    obtain rfl | rfl : call = lone mins req ∨ call = lone mins req' := by
      simpa [missed, hit] using henter
    · cases List.mem_singleton.mp hasks.mem
      cases ht.symm.trans hasks.tensor
      exact Option.some.inj (hasks.text.symm.trans htext)
    · cases List.mem_singleton.mp hasks.mem
      cases ht'.symm.trans hasks.tensor
      exact Option.some.inj (hasks.text.symm.trans htext')
  intro x hx y hy _
  rw [hone x hx, hone y hy]

omit hdir ht htext hrepack hover hback in
/-- A request that is asked again keeps apart from itself. -/
theorem keepsApart_lone {calls : List (Call S.openFile F)}
    (hcalls : ∀ other ∈ calls, other = lone mins req) :
    KeepsApart D S (lone mins req) calls := by
  intro _ asked t text hasks other hother asked' t' hasks'
  rw [hcalls other hother] at hasks' ⊢
  cases List.mem_singleton.mp hasks.mem
  cases List.mem_singleton.mp hasks'.mem
  exact ⟨rfl, rfl, fun _ h => h⟩

end Twice

end Arcint.Gguf.Verdicts
