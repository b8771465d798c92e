import Mathlib.Data.List.AList
import Mathlib.Data.Rat.Floor
import Pingclair.Lib.Durations
import Pingclair.Lib.RateBound

/-!
# The rate limiter

Every key has a bucket of tokens that fills at a steady rate up to its capacity; a request
takes one token or is refused. A bucket that has not been used for a while is deleted on some
later request, for whatever key, and a key without a bucket starts with a full one.

Tokens are rational numbers; times and durations are in nanoseconds.
-/

namespace Pingclair

def maxTrackedKeys : Nat := 65536

def pruneEveryChecks : Nat := 1024

def asSecs (duration : Nat) : ℚ := duration / nanosPerSecond

structure RateLimitConfig where
  requestsPerWindow : Nat
  window : Nat
  burst : Nat
  dryRun : Bool

structure Bucket where
  tokens : ℚ
  lastRefill : Nat
  lastSeen : Nat

abbrev Buckets := AList fun _ : UInt64 => Bucket

structure BucketStore where
  buckets : Buckets
  checks : UInt64

def BucketStore.empty : BucketStore := ⟨∅, 0⟩

structure RateLimitInfo where
  limit : Nat
  remaining : Nat
  resetAfter : Nat
  retryAfter : Option Nat
  dryRun : Bool

structure RateLimitDecision where
  reject : Bool
  info : RateLimitInfo

def retain (keep : Bucket → Bool) (buckets : Buckets) : Buckets :=
  ⟨buckets.entries.filter fun entry => keep entry.2, buckets.nodupKeys.sublist List.filter_sublist⟩

def pruneIdleBuckets (buckets : Buckets) (now idleTtl : Nat) : Buckets :=
  retain (fun bucket => now - bucket.lastSeen < idleTtl) buckets

def durationForTokens (tokens refillPerSecond : ℚ) (atLeastOne : Bool) : Nat :=
  let seconds := min ⌈max tokens 0 / refillPerSecond⌉.toNat u64Max
  (if atLeastOne then max seconds 1 else seconds) * nanosPerSecond

namespace RateLimitConfig

variable (config : RateLimitConfig)

def capacity : Nat := min (config.requestsPerWindow + config.burst) u64Max

def refillPerSecond : ℚ := config.requestsPerWindow / asSecs config.window

def idleTtl : Nat := max (min (config.window * 2) durationMax) (60 * nanosPerSecond)

def decision (exceeded : Bool) (remaining resetAfter retryAfter : Nat) : RateLimitDecision where
  reject := exceeded && !config.dryRun
  info :=
    { limit := config.capacity
      remaining, resetAfter
      retryAfter := if exceeded then some retryAfter else none
      dryRun := config.dryRun }

/-- Deletes idle buckets on every 1024th check, and when there is no room for a new key.
Answers whether there still is none. -/
def makeRoom (checks : UInt64) (buckets : Buckets) (key : UInt64) (now : Nat) : Buckets × Bool :=
  let buckets :=
    if checks.toNat % pruneEveryChecks = 0 then pruneIdleBuckets buckets now config.idleTtl
    else buckets
  if key ∉ buckets ∧ buckets.entries.length ≥ maxTrackedKeys then
    let buckets := pruneIdleBuckets buckets now config.idleTtl
    (buckets, buckets.entries.length ≥ maxTrackedKeys)
  else (buckets, false)

def refilled (buckets : Buckets) (key : UInt64) (now : Nat) : ℚ :=
  let bucket := (buckets.lookup key).getD ⟨config.capacity, now, now⟩
  let elapsed := now - bucket.lastRefill
  min (bucket.tokens + asSecs elapsed * config.refillPerSecond) config.capacity

def checkKeyAt (store : BucketStore) (key : UInt64) (now : Nat) : RateLimitDecision × BucketStore :=
  let checks := store.checks + 1
  match config.makeRoom checks store.buckets key now with
  | (buckets, true) => (config.decision true 0 config.window config.window, ⟨buckets, checks⟩)
  | (buckets, false) =>
    let refilled := config.refilled buckets key now
    let exceeded : Bool := refilled < 1
    let tokens := if exceeded then refilled else refilled - 1
    let remaining := min ⌊tokens⌋.toNat u64Max
    let resetAfter := durationForTokens (config.capacity - tokens) config.refillPerSecond false
    let retryAfter := durationForTokens (1 - tokens) config.refillPerSecond true
    (config.decision exceeded remaining resetAfter retryAfter,
      ⟨buckets.insert key ⟨tokens, now, now⟩, checks⟩)

end RateLimitConfig

structure RateCall where
  key : UInt64
  now : Nat

namespace RateLimitConfig

variable (config : RateLimitConfig)

/-- The limiter as a system that counts what it admits for one key. -/
def calls (key : UInt64) : CallSystem BucketStore RateCall ℚ where
  step store call := (config.checkKeyAt store call.key call.now).2
  time call := call.now
  counted store call := call.key == key && !(config.checkKeyAt store call.key call.now).1.reject

theorem lookup_retain (keep : Bucket → Bool) (buckets : Buckets) (key : UInt64) :
    (retain keep buckets).lookup key = (buckets.lookup key).filter keep := by
  ext bucket
  rw [← Option.mem_def, ← Option.mem_def, AList.mem_lookup_iff, Option.mem_filter_iff,
    AList.mem_lookup_iff, retain, List.mem_filter]

/-- Every bucket is left alone, or has been idle and is deleted. -/
def Pruned (now : Nat) (before after : Buckets) : Prop :=
  ∀ key, after.lookup key = before.lookup key ∨
    after.lookup key = none ∧ ∃ bucket ∈ before.lookup key, config.idleTtl ≤ now - bucket.lastSeen

variable {config} {buckets : Buckets} {bucket : Bucket} {key : UInt64} {t u : ℚ} {now : Nat}

theorem Pruned.refl : config.Pruned now buckets buckets := fun _ => .inl rfl

variable {after : Buckets}

theorem Pruned.trans {middle : Buckets} (h : config.Pruned now buckets middle)
    (h' : config.Pruned now middle after) : config.Pruned now buckets after := by
  intro key
  rcases h' key with hsm | ⟨hnone, b, hbkt, hage⟩
  · rw [hsm]
    exact h key
  · rcases h key with hsm | ⟨hgo, _⟩
    · exact .inr ⟨hnone, b, hsm ▸ hbkt, hage⟩
    · rw [hgo] at hbkt
      simp at hbkt

theorem pruned_pruneIdleBuckets :
    config.Pruned now buckets (pruneIdleBuckets buckets now config.idleTtl) := by
  intro key
  rw [pruneIdleBuckets, lookup_retain]
  cases hlk : buckets.lookup key with
  | none => exact .inl rfl
  | some b =>
    by_cases hage : now - b.lastSeen < config.idleTtl
    · exact .inl (by simp [hage])
    · exact .inr ⟨by simpa using hage, b, rfl, not_lt.mp hage⟩

theorem pruned_makeRoom (checks : UInt64) (buckets : Buckets) (key : UInt64) (now : Nat) :
    config.Pruned now buckets (config.makeRoom checks buckets key now).1 := by
  have hf : config.Pruned now buckets (if checks.toNat % pruneEveryChecks = 0 then
      pruneIdleBuckets buckets now config.idleTtl else buckets) := by
    split
    · exact pruned_pruneIdleBuckets
    · exact .refl
  simp only [makeRoom]
  generalize (if checks.toNat % pruneEveryChecks = 0 then
    pruneIdleBuckets buckets now config.idleTtl else buckets) = first at hf ⊢
  split
  · exact hf.trans pruned_pruneIdleBuckets
  · exact hf

/-- Whatever the keys and the times are, the table has a bound. -/
theorem tracked_le (calls : List RateCall) :
    (calls.foldl (fun store call => (config.checkKeyAt store call.key call.now).2)
      .empty).buckets.entries.length ≤ maxTrackedKeys := by
  refine calls.foldlRecOn (motive := fun s : BucketStore =>
    s.buckets.entries.length ≤ maxTrackedKeys) _ (Nat.zero_le _) fun store h call _ => ?_
  have hprune (b : Buckets) :
      (pruneIdleBuckets b call.now config.idleTtl).entries.length ≤ b.entries.length :=
    List.length_filter_le ..
  have hinsert (b : Buckets) (new : Bucket) : (b.insert call.key new).entries.length =
      if call.key ∈ b then b.entries.length else b.entries.length + 1 := by
    have hlen (b : Buckets) : b.entries.length = b.keys.length := (List.length_map _).symm
    grind [AList.keys_insert, AList.mem_keys, List.length_erase]
  simp only [checkKeyAt, makeRoom]
  grind

/-! ### The reserve of a key -/

variable (config) in
def rate : ℚ := config.requestsPerWindow / config.window

theorem refill_eq (hwindow : 0 < config.window) (elapsed : Nat) :
    asSecs elapsed * config.refillPerSecond = config.rate * elapsed := by
  have hn : (nanosPerSecond : ℚ) ≠ 0 := by norm_num [nanosPerSecond]
  rw [refillPerSecond, asSecs, asSecs, rate]
  field_simp

theorem rate_nonneg : 0 ≤ config.rate := by
  rw [rate]
  positivity

variable (config) in
/-- A bucket that the limiter can have written by time `t`. -/
structure ValidBucket (t : ℚ) (bucket : Bucket) : Prop where
  tokens_nonneg : 0 ≤ bucket.tokens
  tokens_le : bucket.tokens ≤ config.capacity
  seen_eq : bucket.lastSeen = bucket.lastRefill
  refill_le : (bucket.lastRefill : ℚ) ≤ t

variable (config) in
def bucketLevel (bucket : Bucket) (t : ℚ) : ℚ :=
  min config.capacity (bucket.tokens + config.rate * (t - bucket.lastRefill))

variable (config) in
def level (buckets : Buckets) (key : UInt64) (t : ℚ) : ℚ :=
  (buckets.lookup key).elim (config.capacity : ℚ) fun bucket => config.bucketLevel bucket t

theorem ValidBucket.level_nonneg (h : config.ValidBucket t bucket) :
    0 ≤ config.bucketLevel bucket t := by
  have hgrow := mul_nonneg config.rate_nonneg (sub_nonneg.mpr h.refill_le)
  exact le_min (Nat.cast_nonneg _) (add_nonneg h.tokens_nonneg hgrow)

theorem bucketLevel_wait (htu : t ≤ u) :
    config.bucketLevel bucket u ≤ config.bucketLevel bucket t + config.rate * (u - t) := by
  have hgrow := mul_nonneg config.rate_nonneg (sub_nonneg.mpr htu)
  rw [bucketLevel, bucketLevel, ← min_add_add_right]
  apply min_le_min
  · linarith
  · linarith

/-- A bucket that has been idle for as long as it takes to fill is full. -/
theorem bucketLevel_of_idle (hwindow : 0 < config.window)
    (hidle : config.capacity * config.window ≤ config.requestsPerWindow * config.idleTtl)
    (h : config.ValidBucket now bucket) (hage : config.idleTtl ≤ now - bucket.lastSeen) :
    config.bucketLevel bucket now = config.capacity := by
  have hw : (0 : ℚ) < config.window := by exact_mod_cast hwindow
  have hfl : (config.capacity : ℚ) ≤ config.rate * config.idleTtl := by
    rw [rate, div_mul_eq_mul_div, le_div_iff₀ hw]
    exact_mod_cast hidle
  have hold : (config.idleTtl : ℚ) ≤ now - bucket.lastRefill := by
    have hle : bucket.lastRefill ≤ now := by exact_mod_cast h.refill_le
    rw [h.seen_eq] at hage
    exact_mod_cast hage
  have hgrow := mul_le_mul_of_nonneg_left hold config.rate_nonneg
  have htks := h.tokens_nonneg
  rw [bucketLevel, min_eq_left]
  linarith

variable (config) in
def Valid (buckets : Buckets) (t : ℚ) : Prop :=
  ∀ key, ∀ bucket ∈ buckets.lookup key, config.ValidBucket t bucket

theorem Pruned.valid (hprn : config.Pruned now buckets after) (h : config.Valid buckets t) :
    config.Valid after t := by
  intro key b hbkt
  rcases hprn key with hsm | ⟨hnone, _⟩
  · exact h key b (hsm ▸ hbkt)
  · rw [hnone] at hbkt
    simp at hbkt

/-- Pruning takes no tokens away and brings none in. -/
theorem Pruned.level_eq (hprn : config.Pruned now buckets after) (hwindow : 0 < config.window)
    (hidle : config.capacity * config.window ≤ config.requestsPerWindow * config.idleTtl)
    (h : config.Valid buckets now) (key : UInt64) :
    config.level after key now = config.level buckets key now := by
  rcases hprn key with hsm | ⟨hnone, b, hbkt, hage⟩
  · rw [level, level, hsm]
  · rw [level, level, hnone, Option.mem_def.mp hbkt]
    exact (bucketLevel_of_idle hwindow hidle (h key b hbkt) hage).symm

theorem Valid.level_nonneg (h : config.Valid buckets t) : 0 ≤ config.level buckets key t := by
  rw [level]
  cases hlk : buckets.lookup key with
  | none => exact Nat.cast_nonneg _
  | some b => exact (h key b hlk).level_nonneg

theorem level_le_capacity : config.level buckets key t ≤ config.capacity := by
  rw [level]
  cases buckets.lookup key with
  | none => exact le_rfl
  | some b => exact min_le_left _ _

theorem Valid.wait (h : config.Valid buckets t) (htu : t ≤ u) : config.Valid buckets u := by
  intro key b hbkt
  obtain ⟨hnonneg, hle, hse, hrefill⟩ := h key b hbkt
  exact ⟨hnonneg, hle, hse, hrefill.trans htu⟩

theorem level_wait (htu : t ≤ u) :
    config.level buckets key u ≤ config.level buckets key t + config.rate * (u - t) := by
  rw [level, level]
  cases buckets.lookup key with
  | none => exact le_add_of_nonneg_right (mul_nonneg config.rate_nonneg (sub_nonneg.mpr htu))
  | some b => exact bucketLevel_wait htu

/-- What a key is charged against is its reserve. -/
theorem refilled_eq (hwindow : 0 < config.window) (h : config.Valid buckets now) :
    config.refilled buckets key now = config.level buckets key now := by
  rw [refilled, level]
  cases hlk : buckets.lookup key with
  | none => simp [asSecs]
  | some b =>
    have hle : b.lastRefill ≤ now := by exact_mod_cast (h key b hlk).refill_le
    simp only [Option.getD_some, Option.elim_some]
    rw [refill_eq hwindow, Nat.cast_sub hle, bucketLevel, min_comm]

/-- What a check does to the buckets: idle ones may go, and the key is charged unless there is
no room for it. -/
theorem checkKeyAt_cases (config : RateLimitConfig) (store : BucketStore) (key : UInt64)
    (now : Nat) :
    ∃ buckets, config.Pruned now store.buckets buckets ∧
      ((config.checkKeyAt store key now).1.reject = !config.dryRun ∧
          (config.checkKeyAt store key now).2.buckets = buckets ∨
        ∃ exceeded : Bool, (exceeded = true ↔ config.refilled buckets key now < 1) ∧
          (config.checkKeyAt store key now).1.reject = (exceeded && !config.dryRun) ∧
          (config.checkKeyAt store key now).2.buckets = buckets.insert key
            ⟨config.refilled buckets key now - if exceeded then 0 else 1, now, now⟩) := by
  refine ⟨_, pruned_makeRoom (store.checks + 1) store.buckets key now, ?_⟩
  rw [checkKeyAt]
  cases hrm : config.makeRoom (store.checks + 1) store.buckets key now with
  | mk buckets full =>
    cases full with
    | true => exact .inl ⟨rfl, rfl⟩
    | false =>
      refine .inr ⟨decide (config.refilled buckets key now < 1), decide_eq_true_iff, rfl, ?_⟩
      by_cases hlo : config.refilled buckets key now < 1
      · simp [hlo]
      · simp [hlo]

theorem level_insert_self (htks : bucket.tokens ≤ config.capacity)
    (hrefill : bucket.lastRefill = now) :
    config.level (buckets.insert key bucket) key now = bucket.tokens := by
  rw [level]
  simp [bucketLevel, hrefill, htks]

theorem level_insert_ne {o : UInt64} (h : o ≠ key) :
    config.level (buckets.insert key bucket) o t = config.level buckets o t := by
  rw [level, level, AList.lookup_insert_ne h]

theorem Valid.insert (h : config.Valid buckets t) (hbkt : config.ValidBucket t bucket) :
    config.Valid (buckets.insert key bucket) t := by
  intro o found hfd
  by_cases hk : o = key
  · subst hk
    rw [AList.lookup_insert] at hfd
    exact Option.some.inj hfd ▸ hbkt
  · rw [AList.lookup_insert_ne hk] at hfd
    exact h o found hfd

section

variable (hwindow : 0 < config.window) (hdry : config.dryRun = false)
  (hidle : config.capacity * config.window ≤ config.requestsPerWindow * config.idleTtl)

include hwindow hdry hidle

/-- A check takes from a key's reserve exactly what it admits for the key. -/
theorem checkKeyAt_level {store : BucketStore} (h : config.Valid store.buckets now) (o : UInt64) :
    config.Valid (config.checkKeyAt store key now).2.buckets now ∧
      config.level (config.checkKeyAt store key now).2.buckets o now +
        (if (key == o && !(config.checkKeyAt store key now).1.reject) = true then 1 else 0) ≤
      config.level store.buckets o now := by
  obtain ⟨buckets, hprn, hca⟩ := checkKeyAt_cases config store key now
  have hv := hprn.valid h
  rw [← hprn.level_eq hwindow hidle h o]
  rcases hca with ⟨hrej, hbkts⟩ | ⟨e, hexceeded, hrej, hbkts⟩
  · rw [hrej, hbkts, hdry]
    simp [hv]
  · have hnonneg : 0 ≤ config.level buckets key now := hv.level_nonneg
    have hcap : config.level buckets key now ≤ config.capacity := level_le_capacity
    rw [refilled_eq hwindow hv] at hexceeded hbkts
    rw [hrej, hbkts, hdry]
    have htks : 0 ≤ config.level buckets key now - (if e then 0 else 1) := by
      cases e with
      | true => simpa using hnonneg
      | false =>
        have hone : ¬ config.level buckets key now < 1 := fun hlt => by
          simpa using hexceeded.mpr hlt
        simpa using hone
    have hle : config.level buckets key now - (if e then 0 else 1) ≤ config.capacity := by
      cases e <;> simp <;> linarith
    refine ⟨hv.insert ⟨htks, hle, rfl, le_rfl⟩, ?_⟩
    by_cases hk : o = key
    · subst hk
      rw [level_insert_self hle rfl]
      cases e <;> simp
    · rw [level_insert_ne hk]
      simp [Ne.symm hk]

variable (config) in
def reserve (key : UInt64) : (config.calls key).Reserve (config.capacity : ℚ) config.rate where
  Valid store t := config.Valid store.buckets t
  level store t := config.level store.buckets key t
  nonneg h := h.level_nonneg
  le_cap _ := level_le_capacity
  rate_nonneg := config.rate_nonneg
  wait h htu := ⟨h.wait htu, level_wait htu⟩
  call h := checkKeyAt_level hwindow hdry hidle h key

end

/-- The token-bucket law, when a bucket is deleted only after the time it takes to fill. -/
theorem admitted_le (config : RateLimitConfig) (hwindow : 0 < config.window)
    (hdry : config.dryRun = false)
    (hidle : config.capacity * config.window ≤ config.requestsPerWindow * config.idleTtl)
    (calls : List RateCall) (hcalls : calls.Pairwise fun c d => c.now ≤ d.now)
    (key : UInt64) {t₁ t₂ : ℚ} (h : t₁ ≤ t₂) :
    ((config.calls key).count t₁ t₂ .empty calls : ℚ) ≤
      config.requestsPerWindow + config.burst +
        config.requestsPerWindow / config.window * (t₂ - t₁) := by
  have hem : config.Valid BucketStore.empty.buckets 0 := by
    intro key b hbkt
    rw [BucketStore.empty] at hbkt
    simp at hbkt
  have hfr : (config.calls key).From 0 calls := by
    apply CallSystem.from_of_pairwise
    · exact hcalls.imp fun hle => Nat.cast_le.mpr hle
    · exact fun cl _ => Nat.cast_nonneg cl.now
  have hcapacity : (config.capacity : ℚ) ≤ config.requestsPerWindow + config.burst := by
    exact_mod_cast min_le_left _ _
  calc ((config.calls key).count t₁ t₂ .empty calls : ℚ)
      ≤ config.capacity + config.rate * (t₂ - t₁) :=
        (config.reserve hwindow hdry hidle key).count_le hem hfr h
    _ ≤ config.requestsPerWindow + config.burst + config.rate * (t₂ - t₁) :=
        add_le_add_left hcapacity _

/-- The default configuration: 100 requests in a minute, and ten more at once. -/
theorem admitted_le_default :
    let config : RateLimitConfig := ⟨100, 60 * nanosPerSecond, 10, false⟩
    let calls : List RateCall := [⟨1, 0⟩, ⟨2, 5⟩, ⟨1, 7⟩]
    ((config.calls 1).count 0 7 .empty calls : ℚ) ≤
      config.requestsPerWindow + config.burst +
        config.requestsPerWindow / config.window * (7 - 0) :=
  admitted_le _ (by decide) rfl (by decide) _ (by decide) 1 (by norm_num)

/-- `n` requests for one key, later `m` for another, and again `n` for the first. -/
def flood (n m late : Nat) : List RateCall :=
  List.replicate n ⟨1, 0⟩ ++ List.replicate m ⟨2, late⟩ ++ List.replicate n ⟨1, late⟩

theorem pairwise_flood (n m late : Nat) : (flood n m late).Pairwise fun c d => c.now ≤ d.now := by
  simp only [flood, List.pairwise_append, List.pairwise_replicate, List.mem_append,
    List.mem_replicate]
  refine ⟨⟨.inr le_rfl, .inr le_rfl, ?_⟩, .inr le_rfl, ?_⟩
  · rintro _ ⟨-, rfl⟩ _ ⟨-, rfl⟩
    exact Nat.zero_le late
  · rintro _ (⟨-, rfl⟩ | ⟨-, rfl⟩) _ ⟨-, rfl⟩
    · exact Nat.zero_le late
    · exact le_rfl

set_option maxRecDepth 100000 in
theorem count_flood : (calls ⟨1, 60 * nanosPerSecond, 2, false⟩ 1).count 0 (120 * nanosPerSecond)
    .empty (flood 3 1021 (120 * nanosPerSecond)) = 6 := by
  decide +kernel

/-- One request a minute, and two more at once: a key gets six in two minutes, where the law
says five. Another key's requests have its bucket deleted before it is full. -/
theorem admitted_gt_of_pruned :
    let config : RateLimitConfig := ⟨1, 60 * nanosPerSecond, 2, false⟩
    let calls := flood 3 1021 (120 * nanosPerSecond)
    calls.Pairwise (fun c d => c.now ≤ d.now) ∧
      config.requestsPerWindow + config.burst +
          config.requestsPerWindow / config.window * (120 * nanosPerSecond - 0 : ℚ) <
        (config.calls 1).count 0 (120 * nanosPerSecond) .empty calls := by
  refine ⟨pairwise_flood _ _ _, ?_⟩
  rw [count_flood]
  norm_num [nanosPerSecond]

end RateLimitConfig

end Pingclair
