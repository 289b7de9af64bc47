import ChainNode.Node.Settings
import ChainNode.Proofs.Text.Numeral

/-!
# Which variables make which settings

`fields` lists the numeric variables in the order in which they are read, each with the first number
that is too large for it and the place where its number is found in the settings. `Configured` says
with it what settings have to be like: every number that is set is in its place, everything else is
as it is by default. Loading is compared with that.

* `fields_setBy`: a variable changes its own place and no other.
* `overrideAll_eq_ok_iff`, `overrideAll_eq_error_iff`: what the variables come to.
* `Configured.unique`, `exists_configured_iff`: there is one way to be configured, if all variables
  can be read.
* `load_classified`: what loading returns.
-/
namespace ChainNode.NodeSettings

/-- A number that a variable holds. -/
structure Field where
  key : String
  /-- The first number that is too large. -/
  size : Nat
  /-- Where it is found, if it is set. -/
  value : NodeSettings → Option Nat

/-- All of them in the order in which they are read. -/
def fields : List Field :=
  [⟨"MC_WORKER_THREADS", UInt64.size, fun s => s.workerThreads⟩,
   ⟨"MC_PRODUCTION_INTERVAL_MS", UInt64.size, fun s => s.productionIntervalMs⟩,
   ⟨"MC_MAX_BLOCK_TRANSACTIONS", UInt64.size, fun s => s.maxBlockTransactions⟩,
   ⟨"MC_TARGET_MINING_RATE_MS", UInt64.size, fun s => s.forge.targetRateMs⟩,
   ⟨"MC_MINIMUM_QUORUM_SIZE", UInt64.size, fun s => s.forge.minimumQuorum⟩,
   ⟨"MC_INITIAL_DIFFICULTY", UInt32.size, fun s => s.forge.initialDifficulty.toNat⟩,
   ⟨"MC_MAJORITY_BLOCK_THRESHOLD", UInt64.size, fun s => s.forge.majorityThreshold⟩,
   ⟨"MC_FANOUT_WIDTH", UInt32.size, fun s => s.sync.fanoutWidth.toNat⟩,
   ⟨"MC_MAX_FETCH_RETRIES", UInt32.size, fun s => s.sync.maxFetchRetries.toNat⟩,
   ⟨"MC_SCAN_WINDOW_SIZE", UInt64.size, fun s => s.sync.scanWindow⟩,
   ⟨"MC_BATCH_SIZE", UInt32.size, fun s => s.sync.batchSize.toNat⟩,
   ⟨"MC_REQUEST_TIMEOUT_MS", UInt64.size, fun s => s.sync.requestTimeoutMs⟩,
   ⟨"MC_DUPLICATE_CACHE_TTL_SECS", UInt64.size, fun s => s.sync.cacheTtlSecs⟩,
   ⟨"MC_DUPLICATE_CACHE_CAPACITY", UInt64.size, fun s => s.sync.cacheCapacity⟩]

/-- What a variable is read by. -/
def Field.format (f : Field) : String × Nat := (f.key, f.size)

def Variable.format (v : Variable) : String × Nat := (v.key, v.size)

/-- The text stands for a number that is small enough. -/
def Fits (size : Nat) (raw : String) : Prop := ∃ n, Text.Numeral raw.toList n ∧ n < size

variable (lookup : String → Option String)

/-- If it is set, it can be read. -/
def Readable (format : String × Nat) : Prop := ∀ raw, lookup format.1 = some raw → Fits format.2 raw

/-- The first of several variables that is set to something else, and what it is set to. -/
inductive FirstUnreadable : List (String × Nat) → String → String → Prop where
  | here {key raw : String} {size : Nat} (rest : List (String × Nat)) (set : lookup key = some raw)
      (unfit : ¬ Fits size raw) : FirstUnreadable ((key, size) :: rest) key raw
  | later {format : String × Nat} {rest : List (String × Nat)} {key raw : String}
      (readable : Readable lookup format) (more : FirstUnreadable rest key raw) :
      FirstUnreadable (format :: rest) key raw

/-- What is set is in its place, and what is not set is as it was. -/
structure Field.Holds (f : Field) (before after : NodeSettings) : Prop where
  unset : lookup f.key = none → f.value after = f.value before
  set : ∀ raw, lookup f.key = some raw →
    ∃ n, Text.Numeral raw.toList n ∧ n < f.size ∧ f.value after = some n

/-- Settings as the variables want them. -/
structure Configured (s : NodeSettings) : Prop where
  nodeId : s.nodeId = lookup "MC_NODE_ID"
  numbers : ∀ f ∈ fields, f.Holds lookup default s
  minInformative : s.sync.minInformative = default.sync.minInformative
  protocolVersion : s.forge.protocolVersion = default.forge.protocolVersion

/-- Nothing is zero that must not be. -/
structure Positive (s : NodeSettings) : Prop where
  workerThreads : s.workerThreads ≠ 0
  productionIntervalMs : s.productionIntervalMs ≠ 0
  maxBlockTransactions : s.maxBlockTransactions ≠ 0
  fanoutWidth : s.sync.fanoutWidth ≠ 0
  batchSize : s.sync.batchSize ≠ 0
  targetRateMs : s.forge.targetRateMs ≠ 0

/-- The first of several settings that is zero. -/
inductive FirstZero : List (String × Nat) → String → Prop where
  | here (setting : String) (rest : List (String × Nat)) : FirstZero ((setting, 0) :: rest) setting
  | later {other : String × Nat} {rest : List (String × Nat)} {setting : String}
      (positive : other.2 ≠ 0) (more : FirstZero rest setting) : FirstZero (other :: rest) setting

variable {lookup} {f : Field} {v : Variable} {vs : List Variable} {s s' : NodeSettings}

/-! ## One variable -/

theorem Variable.read_eq_some_iff {raw : String} {n : Nat} :
    v.read raw = some n ↔ Text.Numeral raw.toList n ∧ n < v.size :=
  Text.readDecimal_trim_eq_some_iff

theorem Variable.read_eq_none_iff {raw : String} : v.read raw = none ↔ ¬ Fits v.size raw := by
  simp only [Option.eq_none_iff_forall_ne_some, ne_eq, Variable.read_eq_some_iff, Fits, not_exists]

theorem override_eq_ok_iff :
    override lookup v s = .ok s' ↔ lookup v.key = none ∧ s' = s ∨
      ∃ raw n, lookup v.key = some raw ∧ Text.Numeral raw.toList n ∧ n < v.size ∧
        s' = v.set n s := by
  unfold override
  cases set : lookup v.key with
  | none => simp [eq_comm]
  | some raw =>
    dsimp only
    cases read : v.read raw with
    | none =>
      have unfit := Variable.read_eq_none_iff.mp read
      simp only [reduceCtorEq, false_and, Option.some.injEq, false_or, false_iff]
      rintro ⟨_, n, rfl, numeral, small, -⟩
      exact unfit ⟨n, numeral, small⟩
    | some n =>
      obtain ⟨numeral, small⟩ := Variable.read_eq_some_iff.mp read
      simp only [Except.ok.injEq, reduceCtorEq, false_and, Option.some.injEq, false_or]
      constructor
      · rintro rfl
        exact ⟨raw, n, rfl, numeral, small, rfl⟩
      · rintro ⟨_, m, rfl, numeral', -, rfl⟩
        rw [numeral.unique numeral']

theorem override_eq_error_iff {e : SettingsError} :
    override lookup v s = .error e ↔
      ∃ raw, lookup v.key = some raw ∧ ¬ Fits v.size raw ∧ e = .invalidValue v.key raw := by
  unfold override
  cases set : lookup v.key with
  | none => simp
  | some raw =>
    simp only [Option.some.injEq, exists_eq_left', ← Variable.read_eq_none_iff]
    cases v.read raw with
    | none => simp [eq_comm]
    | some n => simp

/-- A variable changes the place that goes with its key, and leaves the others alone. -/
structure Field.SetBy (f : Field) (v : Variable) : Prop where
  own : v.key = f.key → v.size = f.size ∧ ∀ n < f.size, ∀ s, f.value (v.set n s) = some n
  other : v.key ≠ f.key → ∀ n s, f.value (v.set n s) = f.value s

theorem fields_setBy : ∀ f ∈ fields, ∀ v ∈ numericVariables, f.SetBy v := by
  have word (n : Nat) (h : n < UInt32.size) : (UInt32.ofNat n).toNat = n :=
    UInt32.toNat_ofNat_of_lt' h
  intro f hf v hv
  simp only [fields, List.mem_cons, List.not_mem_nil, or_false] at hf
  simp only [numericVariables, Variable.word64, Variable.word32, List.mem_cons, List.not_mem_nil,
    or_false] at hv
  -- each field against each variable: keys and places have to agree both ways
  rcases hf with
    rfl | rfl | rfl | rfl | rfl | rfl | rfl | rfl | rfl | rfl | rfl | rfl | rfl | rfl <;>
  rcases hv with
    rfl | rfl | rfl | rfl | rfl | rfl | rfl | rfl | rfl | rfl | rfl | rfl | rfl | rfl <;>
  constructor <;> simp +contextual [word]

/-! ## Several variables -/

theorem overrideAll_cons_eq_ok_iff :
    overrideAll lookup (v :: vs) s = .ok s' ↔
      ∃ s₁, override lookup v s = .ok s₁ ∧ overrideAll lookup vs s₁ = .ok s' := by
  rw [overrideAll]
  cases override lookup v s <;> simp

/-- By induction on the variables: what comes before the first that cannot be read does not
matter. -/
theorem overrideAll_eq_error_iff {e : SettingsError} :
    overrideAll lookup vs s = .error e ↔
      ∃ key raw, FirstUnreadable lookup (vs.map Variable.format) key raw ∧
        e = .invalidValue key raw := by
  induction vs generalizing s with
  | nil =>
    simp only [overrideAll, reduceCtorEq, List.map_nil, false_iff]
    rintro ⟨key, raw, first, -⟩
    cases first
  | cons v vs ih =>
    rw [overrideAll]
    cases stopped : override lookup v s with
    | error e' =>
      obtain ⟨raw, set, unfit, rfl⟩ := override_eq_error_iff.mp stopped
      simp only [Except.error.injEq]
      constructor
      · rintro rfl
        exact ⟨v.key, raw, .here _ set unfit, rfl⟩
      · rintro ⟨key, raw', first, rfl⟩
        cases first with
        | here _ set' =>
          rw [Option.some.inj (set.symm.trans set')]
        | later readable => exact absurd (readable raw set) unfit
    | ok s₁ =>
      have readable : Readable lookup v.format := by
        intro raw set
        by_contra unfit
        have failed := (override_eq_error_iff (s := s)).mpr ⟨raw, set, unfit, rfl⟩
        rw [stopped] at failed
        cases failed
      simp only [ih]
      constructor
      · rintro ⟨key, raw, first, rfl⟩
        exact ⟨key, raw, .later readable first, rfl⟩
      · rintro ⟨key, raw, first, rfl⟩
        cases first with
        | here _ set unfit => exact absurd (readable raw set) unfit
        | later _ more => exact ⟨key, raw, more, rfl⟩

/-- What none of the variables changes that are set, stays. -/
theorem overrideAll_keeps {τ : Type} (view : NodeSettings → τ)
    (kept : ∀ v ∈ vs, lookup v.key = none ∨ ∀ n s, view (v.set n s) = view s)
    (ok : overrideAll lookup vs s = .ok s') : view s' = view s := by
  induction vs generalizing s with
  | nil =>
    cases ok
    rfl
  | cons v vs ih =>
    obtain ⟨here, rest⟩ := List.forall_mem_cons.mp kept
    obtain ⟨s₁, first, ok⟩ := overrideAll_cons_eq_ok_iff.mp ok
    rw [ih rest ok]
    rcases override_eq_ok_iff.mp first with ⟨-, rfl⟩ | ⟨raw, n, set, -, -, rfl⟩
    · rfl
    · rcases here with unset | same
      · rw [set] at unset
        cases unset
      · exact same n s

/-- By induction on the variables: the last one with the key of a field decides, and it is the only
one that is read. -/
theorem overrideAll_sets (hf : f ∈ fields) (numeric : ∀ v ∈ vs, v ∈ numericVariables)
    {raw : String} (set : lookup f.key = some raw) (read : f.key ∈ vs.map Variable.key)
    (ok : overrideAll lookup vs s = .ok s') :
    ∃ n, Text.Numeral raw.toList n ∧ n < f.size ∧ f.value s' = some n := by
  induction vs generalizing s with
  | nil => cases read
  | cons v vs ih =>
    obtain ⟨hv, rest⟩ := List.forall_mem_cons.mp numeric
    obtain ⟨s₁, first, ok⟩ := overrideAll_cons_eq_ok_iff.mp ok
    by_cases again : f.key ∈ vs.map Variable.key
    · exact ih rest again ok
    · have own : v.key = f.key := by
        rcases List.mem_cons.mp read with own | again'
        · exact own.symm
        · exact absurd again' again
      obtain ⟨size, sets⟩ := (fields_setBy f hf v hv).own own
      have kept : f.value s' = f.value s₁ := by
        refine overrideAll_keeps f.value
          (fun u hu => .inr ((fields_setBy f hf u (rest u hu)).other ?_)) ok
        exact fun same => again (same ▸ List.mem_map_of_mem hu)
      rcases override_eq_ok_iff.mp first with ⟨unset, -⟩ | ⟨raw', n, set', numeral, small, rfl⟩
      · rw [own, set] at unset
        cases unset
      · rw [own, set] at set'
        cases set'
        rw [size] at small
        exact ⟨n, numeral, small, kept.trans (sets n small s)⟩

/-! ## All of them -/

variable (lookup) in
/-- What loading starts from. -/
def start : NodeSettings := { default with nodeId := lookup "MC_NODE_ID" }

theorem fields_format : fields.map Field.format = numericVariables.map Variable.format := rfl

theorem fields_value_start : ∀ f ∈ fields, f.value (start lookup) = f.value default := by
  simp [fields, start]

/-- No variable that holds a number changes these. -/
theorem Variable.set_keeps : ∀ v ∈ numericVariables, ∀ n s,
    (v.set n s).nodeId = s.nodeId ∧
    (v.set n s).sync.minInformative = s.sync.minInformative ∧
    (v.set n s).forge.protocolVersion = s.forge.protocolVersion := by
  simp [numericVariables, Variable.word64, Variable.word32]

theorem key_of_mem_fields (hf : f ∈ fields) : f.key ∈ numericVariables.map Variable.key := by
  have keys : fields.map Field.key = numericVariables.map Variable.key := rfl
  exact keys ▸ List.mem_map_of_mem hf

theorem configured_of_overrideAll
    (ok : overrideAll lookup numericVariables (start lookup) = .ok s) : Configured lookup s where
  nodeId := overrideAll_keeps NodeSettings.nodeId
    (fun v hv => .inr fun n s => (v.set_keeps hv n s).1) ok
  minInformative := overrideAll_keeps (s := start lookup) (fun s => s.sync.minInformative)
    (fun v hv => .inr fun n s => (v.set_keeps hv n s).2.1) ok
  protocolVersion := overrideAll_keeps (s := start lookup) (fun s => s.forge.protocolVersion)
    (fun v hv => .inr fun n s => (v.set_keeps hv n s).2.2) ok
  numbers f hf := by
    refine ⟨fun unset => ?_, fun raw set => ?_⟩
    · rw [← fields_value_start f hf]
      refine overrideAll_keeps f.value (fun v hv => ?_) ok
      by_cases own : v.key = f.key
      · exact .inl (own ▸ unset)
      · exact .inr ((fields_setBy f hf v hv).other own)
    · exact overrideAll_sets hf (fun _ hv => hv) set (key_of_mem_fields hf) ok

theorem Field.Holds.unique (held : f.Holds lookup s s') {t : NodeSettings}
    (held' : f.Holds lookup s t) : f.value s' = f.value t := by
  cases set : lookup f.key with
  | none => rw [held.unset set, held'.unset set]
  | some raw =>
    obtain ⟨n, numeral, -, value⟩ := held.set raw set
    obtain ⟨n', numeral', -, value'⟩ := held'.set raw set
    rw [value, value', numeral.unique numeral']

/-- The fields and what no variable changes are all that there is. -/
theorem Configured.unique (c : Configured lookup s) (c' : Configured lookup s') : s = s' := by
  have values : ∀ f ∈ fields, f.value s = f.value s' := fun f hf =>
    (c.numbers f hf).unique (c'.numbers f hf)
  have ids := c.nodeId.trans c'.nodeId.symm
  have informative := c.minInformative.trans c'.minInformative.symm
  have versions := c.protocolVersion.trans c'.protocolVersion.symm
  obtain ⟨_, _, _, _, ⟨_, _, _, _, _⟩, ⟨_, _, _, _, _, _, _, _⟩⟩ := s
  obtain ⟨_, _, _, _, ⟨_, _, _, _, _⟩, ⟨_, _, _, _, _, _, _, _⟩⟩ := s'
  simp only [fields, List.forall_mem_cons, Option.some.injEq, UInt32.toNat_inj] at values
  simp only [mk.injEq, ForgeSettings.mk.injEq, SyncSettings.mk.injEq]
  grind

theorem FirstUnreadable.unreadable {formats : List (String × Nat)} {key raw : String}
    (first : FirstUnreadable lookup formats key raw) :
    ∃ format ∈ formats, ¬ Readable lookup format := by
  induction first with
  | here rest set unfit => exact ⟨_, List.mem_cons_self, fun readable => unfit (readable _ set)⟩
  | later _ _ ih =>
    obtain ⟨format, listed, unreadable⟩ := ih
    exact ⟨format, List.mem_cons_of_mem _ listed, unreadable⟩

theorem Configured.readable (c : Configured lookup s) : ∀ f ∈ fields, Readable lookup f.format := by
  intro f hf raw set
  obtain ⟨n, numeral, small, -⟩ := (c.numbers f hf).set raw set
  exact ⟨n, numeral, small⟩

theorem overrideAll_ok_of_readable (readable : ∀ f ∈ fields, Readable lookup f.format) :
    ∃ s, overrideAll lookup numericVariables (start lookup) = .ok s := by
  cases result : overrideAll lookup numericVariables (start lookup) with
  | ok s => exact ⟨s, rfl⟩
  | error e =>
    obtain ⟨key, raw, first, -⟩ := overrideAll_eq_error_iff.mp result
    rw [← fields_format] at first
    obtain ⟨format, listed, unreadable⟩ := first.unreadable
    obtain ⟨f, hf, rfl⟩ := List.mem_map.mp listed
    exact absurd (readable f hf) unreadable

theorem exists_configured_iff :
    (∃ s, Configured lookup s) ↔ ∀ f ∈ fields, Readable lookup f.format := by
  constructor
  · rintro ⟨s, c⟩
    exact c.readable
  · intro readable
    obtain ⟨s, ok⟩ := overrideAll_ok_of_readable readable
    exact ⟨s, configured_of_overrideAll ok⟩

theorem overrideAll_eq_ok_iff :
    overrideAll lookup numericVariables (start lookup) = .ok s ↔ Configured lookup s := by
  refine ⟨configured_of_overrideAll, fun c => ?_⟩
  obtain ⟨s', ok⟩ := overrideAll_ok_of_readable c.readable
  rw [ok, (configured_of_overrideAll ok).unique c]

/-! ## What must not be zero -/

theorem firstZero_iff {checks : List (String × Nat)} {setting : String} :
    FirstZero checks setting ↔ ∃ n, checks.find? (·.2 = 0) = some (setting, n) := by
  induction checks with
  | nil =>
    simp only [List.find?_nil, reduceCtorEq, exists_false, iff_false]
    rintro ⟨⟩
  | cons check checks ih =>
    obtain ⟨name, n⟩ := check
    by_cases zero : n = 0
    · subst zero
      simp only [List.find?_cons_of_pos, decide_true, Option.some.injEq, Prod.mk.injEq]
      constructor
      · rintro (_ | ⟨positive, -⟩)
        · exact ⟨0, rfl, rfl⟩
        · exact absurd rfl positive
      · rintro ⟨_, rfl, -⟩
        exact .here name checks
    · rw [List.find?_cons_of_neg (by simpa using zero), ← ih]
      constructor
      · rintro (_ | ⟨-, more⟩)
        · exact absurd rfl zero
        · exact more
      · exact .later zero

theorem validate_eq_error_iff {e : SettingsError} :
    s.validate = .error e ↔ ∃ setting, FirstZero s.positives setting ∧ e = .zero setting := by
  simp only [firstZero_iff, validate]
  cases s.positives.find? (·.2 = 0) with
  | none => simp
  | some found =>
    obtain ⟨setting, n⟩ := found
    simp [eq_comm]

/-- Settings are accepted if nothing is zero that must not be. -/
theorem validate_eq_ok_iff : s.validate = .ok () ↔ Positive s := by
  have listed : s.validate = .ok () ↔ ∀ setting ∈ s.positives, setting.2 ≠ 0 := by
    unfold validate
    cases found : s.positives.find? (·.2 = 0) with
    | none => simpa using found
    | some setting =>
      have zero := List.find?_some found
      have listed := List.mem_of_find?_eq_some found
      simp only [reduceCtorEq, false_iff, not_forall, not_not]
      exact ⟨setting, listed, of_decide_eq_true zero⟩
  have word (n : UInt32) : n.toNat = 0 ↔ n = 0 := UInt32.toNat_inj (b := 0)
  simp only [listed, positives, List.forall_mem_cons, ne_eq, word]
  exact ⟨fun ⟨threads, interval, transactions, width, batch, rate, _⟩ =>
      ⟨threads, interval, transactions, width, batch, rate⟩,
    fun p => ⟨p.workerThreads, p.productionIntervalMs, p.maxBlockTransactions, p.fanoutWidth,
      p.batchSize, p.targetRateMs, nofun⟩⟩

/-! ## Loading -/

theorem load_eq : load lookup =
    match overrideAll lookup numericVariables (start lookup) with
    | .error e => .error e
    | .ok s =>
      match s.validate with
      | .error e => .error e
      | .ok () => .ok s := rfl

theorem load_eq_ok_iff : load lookup = .ok s ↔ Configured lookup s ∧ Positive s := by
  rw [← overrideAll_eq_ok_iff, ← validate_eq_ok_iff, load_eq]
  cases overrideAll lookup numericVariables (start lookup) with
  | error e => simp
  | ok s' =>
    simp only [Except.ok.injEq]
    cases accepted : s'.validate with
    | error e =>
      simp only [reduceCtorEq, false_iff]
      rintro ⟨rfl, ok⟩
      rw [accepted] at ok
      cases ok
    | ok u =>
      simp only [Except.ok.injEq]
      constructor
      · rintro rfl
        exact ⟨rfl, accepted⟩
      · exact And.left

theorem load_eq_error_iff {e : SettingsError} :
    load lookup = .error e ↔
      (∃ key raw, FirstUnreadable lookup (fields.map Field.format) key raw ∧
        e = .invalidValue key raw) ∨
      ∃ s, Configured lookup s ∧ ∃ setting, FirstZero s.positives setting ∧ e = .zero setting := by
  simp only [← overrideAll_eq_ok_iff, ← validate_eq_error_iff, fields_format]
  rw [← overrideAll_eq_error_iff (s := start lookup), load_eq]
  cases overrideAll lookup numericVariables (start lookup) with
  | error e' => simp
  | ok s =>
    simp only [reduceCtorEq, Except.ok.injEq, exists_eq_left', false_or]
    cases s.validate with
    | error e' => simp
    | ok u => simp

/-- Loading succeeds if all variables can be read and nothing is zero that must not be, and then
everything is as the variables say. Otherwise the first variable that cannot be read is at fault,
and, if there is none, the first setting that is zero. -/
theorem load_classified (lookup : String → Option String) :
    ((∃ s, Configured lookup s) ↔ ∀ f ∈ fields, Readable lookup f.format) ∧
    (∀ s, load lookup = .ok s ↔ Configured lookup s ∧ Positive s) ∧
    (∀ key raw, load lookup = .error (.invalidValue key raw) ↔
      FirstUnreadable lookup (fields.map Field.format) key raw) ∧
    (∀ setting, load lookup = .error (.zero setting) ↔
      ∃ s, Configured lookup s ∧ FirstZero s.positives setting) := by
  refine ⟨exists_configured_iff, fun _ => load_eq_ok_iff, fun key raw => ?_, fun setting => ?_⟩
  · rw [load_eq_error_iff]
    simp
  · rw [load_eq_error_iff]
    simp

end ChainNode.NodeSettings
