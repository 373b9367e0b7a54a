import PimLibrary.Device.PimInfo
import PimLibrary.Schemes.Word
import PimLibrary.Schemes.Memo
import Mathlib.Data.List.TakeWhile

/-! The cache of converted weights: `find_preloaded_pim_weight`, `insert_preloaded_pim_weight` and
    `get_preloaded_pim_gemm_weight`.

    The key is the exclusive or of the words at multiples of `step = size >> 1`. `step` counts bytes
    but is used as a word index, so the second sample already lies past the weight: from 4 bytes up to
    8 GiB the key is the first word. Shape, gemm order and transposition do not enter it. -/

namespace PimLibrary.Runtime
open Schemes.Word Schemes.Memo PimLibrary.Device

/-- The fields of the raw weight that the cache and the conversion read; `size` is the data's length. -/
structure RawWeight where
  bshape : PimBShape
  transposed : Bool
  data : List UInt8
  deriving DecidableEq

structure Call where
  dev_wei : RawWeight
  gemm_order : PimGemmOrder
  save_for_reuse : Bool

/-- `w_addr_ptr[i]`, little-endian. -/
def w_addr_ptr (w : RawWeight) (i : ℕ) : UInt32 :=
  (w.data.getD (4 * i) 0).toUInt32 ||| (w.data.getD (4 * i + 1) 0).toUInt32 <<< 8 |||
    (w.data.getD (4 * i + 2) 0).toUInt32 <<< 16 ||| (w.data.getD (4 * i + 3) 0).toUInt32 <<< 24

/-- The sampling loop; the index is an `int` that the comparison converts to `size_t`. -/
def w_key_loop (w : RawWeight) (step : ℤ) : ℕ → ℤ → UInt32 → Option UInt32
  | 0, _, _ => none
  | fuel + 1, i, w_key =>
    if toUint64 i < w.data.length / 4 then
      w_key_loop w step fuel (int32 (i + step)) (w_key ^^^ w_addr_ptr w (toUint64 i))
    else some w_key

/-- The key. An `int` index takes `2 ^ 32` values, so a loop that outlasts them never ends: `none`. -/
def w_key (w : RawWeight) : Option UInt32 :=
  w_key_loop w (int32 (w.data.length >>> 1 : ℕ)) (2 ^ 32 + 1) 0 0

section Cache

variable {β : Type}

def find_preloaded_pim_weight (weight_map : UInt32 → Option β) (weight : RawWeight) :
    Option (Option β) :=
  (w_key weight).map weight_map

/-- `unordered_map::insert` keeps an entry that is already there. -/
def insert_preloaded_pim_weight (weight_map : UInt32 → Option β) (dev_wei : RawWeight) (pim_wei : β) :
    Option (UInt32 → Option β) :=
  (w_key dev_wei).map fun w_key =>
    if (weight_map w_key).isSome then weight_map else Function.update weight_map w_key (some pim_wei)

variable (conv : RawWeight → PimGemmOrder → β)

/-- One call; `conv` is the layout conversion that a miss performs. -/
def get_preloaded_pim_gemm_weight (weight_map : UInt32 → Option β) (call : Call) :
    Option ((UInt32 → Option β) × Outcome β) := do
  match ← find_preloaded_pim_weight weight_map call.dev_wei with
  | some pre_wei => return (weight_map, ⟨pre_wei, true⟩)
  | none =>
    let pre_wei := conv call.dev_wei call.gemm_order
    if call.save_for_reuse then
      return (← insert_preloaded_pim_weight weight_map call.dev_wei pre_wei, ⟨pre_wei, false⟩)
    else return (weight_map, ⟨pre_wei, false⟩)

/-- The calls of one runtime in turn, each with what it returns, until one does not return. -/
def run : (UInt32 → Option β) → List Call → List (Call × Outcome β)
  | _, [] => []
  | weight_map, call :: calls =>
    match get_preloaded_pim_gemm_weight conv weight_map call with
    | none => []
    | some (weight_map, outcome) => (call, outcome) :: run weight_map calls

end Cache

/-- Whatever the conversion does, a buffer found in the cache is the conversion of this call's
    weight. -/
def CacheSound (calls : List Call) : Prop :=
  ∀ (β : Type) (conv : RawWeight → PimGemmOrder → β),
    ∀ e ∈ run conv (fun _ => none) calls, e.2.found = true →
      e.2.value = conv e.1.dev_wei e.1.gemm_order

/-! ### What is sampled -/

/-- Below one word nothing is sampled. -/
theorem w_key_of_lt {w : RawWeight} (h : w.data.length < 4) : w_key w = some 0 := by
  rw [w_key, w_key_loop, if_neg (by omega)]

/-- From one word up to 8 GiB only the first word is sampled. -/
theorem w_key_eq_first {w : RawWeight} (h4 : 4 ≤ w.data.length) (h : w.data.length < 2 ^ 33) :
    w_key w = some (w_addr_ptr w 0) := by
  have hshift : w.data.length >>> 1 = w.data.length / 2 := Nat.shiftRight_eq_div_pow _ 1
  have hzero : toUint64 0 = 0 := rfl
  -- the second index is past the end, or negative and converted to a huge `size_t`
  have hpast : w.data.length / 4 ≤ toUint64 (int32 (0 + int32 ((w.data.length / 2 : ℕ) : ℤ))) := by
    rw [Int.zero_add, int32_int32]
    rcases Nat.lt_or_ge (w.data.length / 2) (2 ^ 31) with hlt | hge
    · rw [int32_natCast hlt, toUint64_natCast (by omega)]
      omega
    · have hneg := int32_neg (x := ((w.data.length / 2 : ℕ) : ℤ)) (by omega) (by omega)
      have hlow := neg_le_int32 ((w.data.length / 2 : ℕ) : ℤ)
      generalize int32 ((w.data.length / 2 : ℕ) : ℤ) = i at *
      rw [toUint64]
      omega
  have hfuel : 2 ^ 32 + 1 = 4294967295 + 1 + 1 := by norm_num
  rw [w_key, hshift, hfuel, w_key_loop, hzero, if_pos (by omega), w_key_loop, if_neg (by omega),
    UInt32.zero_xor]

/-! ### The cache is a memo table -/

/-- The sampling loop of the call's weight ends. -/
def returns (call : Call) : Bool := (w_key call.dev_wei).isSome

/-- The key of a call that returns. -/
def callKey (call : Call) : UInt32 := (w_key call.dev_wei).getD 0

/-- What the conversion is a function of. -/
def convArgs (call : Call) : RawWeight × PimGemmOrder := (call.dev_wei, call.gemm_order)

section Refine

variable {β : Type} (conv : RawWeight → PimGemmOrder → β)

/-- A call that returns is one step of the memo table; a miss leaves the key free to be inserted. -/
theorem get_preloaded_eq (weight_map : UInt32 → Option β) {call : Call}
    (h : returns call = true) :
    get_preloaded_pim_gemm_weight conv weight_map call =
      some (memoStep callKey Call.save_for_reuse (fun c => conv c.dev_wei c.gemm_order)
        weight_map call) := by
  obtain ⟨k, hk⟩ := Option.isSome_iff_exists.mp h
  have hkey : callKey call = k := by rw [callKey, hk]; rfl
  rcases hfind : weight_map k with - | v
  · by_cases hs : call.save_for_reuse = true <;>
      simp [get_preloaded_pim_gemm_weight, find_preloaded_pim_weight, insert_preloaded_pim_weight, memoStep,
        hk, hkey, hfind, hs]
  · simp [get_preloaded_pim_gemm_weight, find_preloaded_pim_weight, memoStep, hk, hkey, hfind]

theorem get_preloaded_none (weight_map : UInt32 → Option β) {call : Call}
    (h : returns call = false) :
    get_preloaded_pim_gemm_weight conv weight_map call = none := by
  have hk : w_key call.dev_wei = none := Option.isSome_eq_false_iff.mp h |> Option.isNone_iff_eq_none.mp
  simp [get_preloaded_pim_gemm_weight, find_preloaded_pim_weight, hk]

/-- A run is the memo table's run over the calls before the first one that does not return. -/
theorem run_eq_memoRun (weight_map : UInt32 → Option β) (calls : List Call) :
    run conv weight_map calls =
      memoRun callKey Call.save_for_reuse (fun c => conv c.dev_wei c.gemm_order) weight_map
        (calls.takeWhile returns) := by
  induction calls generalizing weight_map with
  | nil => rfl
  | cons call calls ih =>
    rcases h : returns call with - | -
    · simp [run, get_preloaded_none conv weight_map h, h, memoRun]
    · simp [run, get_preloaded_eq conv weight_map h, h, memoRun, ih]

end Refine

/-! ### The exact condition -/

/-- Among the calls before it, the first that saves under a sampled key. -/
def firstSaving (calls : List Call) (key : Option UInt32) : Option Call :=
  calls.find? fun c => c.save_for_reuse && decide (w_key c.dev_wei = key)

/-- Calls that sample the same word as the first saving call before them carry the same weight. -/
def SampleDetermines (calls : List Call) : Prop :=
  ∀ pre call post, calls = pre ++ call :: post →
    (∀ c ∈ pre ++ [call], returns c = true) →
      ∀ saved, firstSaving pre (w_key call.dev_wei) = some saved →
        saved.dev_wei = call.dev_wei ∧ saved.gemm_order = call.gemm_order

theorem cacheSound_iff_memo (calls : List Call) :
    CacheSound calls ↔ Sound callKey Call.save_for_reuse convArgs
      (calls.takeWhile returns) := by
  constructor
  · intro h β compute
    have hrun := h β fun w o => compute (w, o)
    rwa [run_eq_memoRun] at hrun
  · intro h β conv
    rw [run_eq_memoRun]
    exact h β fun a => conv a.1 a.2

/-- Among calls that return, the key and its default agree. -/
theorem firstSaver_eq {pre : List Call} {call : Call}
    (h : ∀ c ∈ pre ++ [call], returns c = true) :
    firstSaver callKey Call.save_for_reuse pre (callKey call) =
      firstSaving pre (w_key call.dev_wei) := by
  refine List.find?_congr fun c hc => ?_
  obtain ⟨k, hk⟩ := Option.isSome_iff_exists.mp (h c (by simp [hc]))
  obtain ⟨k', hk'⟩ := Option.isSome_iff_exists.mp (h call (by simp))
  simp [callKey, hk, hk']

theorem sampleDetermines_of_cacheSound {calls : List Call} (h : CacheSound calls) :
    SampleDetermines calls := by
  intro pre call post hcalls hret saved hsaved
  have htake : calls.takeWhile returns = pre ++ call :: post.takeWhile returns := by
    rw [hcalls, List.takeWhile_append_of_pos fun c hc => hret c (by simp [hc]),
      List.takeWhile_cons_of_pos (hret call (by simp))]
  have heq := (sound_iff _ _ _ _).mp ((cacheSound_iff_memo calls).mp h) pre call _ htake saved
    (by rw [firstSaver_eq hret]; exact hsaved)
  exact ⟨congrArg Prod.fst heq, congrArg Prod.snd heq⟩

theorem cacheSound_of_sampleDetermines {calls : List Call} (h : SampleDetermines calls) :
    CacheSound calls := by
  refine (cacheSound_iff_memo calls).mpr ((sound_iff _ _ _ _).mpr ?_)
  intro pre call post htake saved hsaved
  have hret : ∀ c ∈ pre ++ [call], returns c = true := by
    intro c hc
    have hmem : c ∈ calls.takeWhile returns := by
      rw [htake]
      rcases List.mem_append.mp hc with h | h
      · exact List.mem_append_left _ h
      · exact List.mem_append_right _ (by rw [List.mem_singleton.mp h]; exact List.mem_cons_self)
    exact List.mem_takeWhile_imp hmem
  have hcalls : calls = pre ++ call :: (post ++ calls.dropWhile returns) := by
    conv_lhs => rw [← List.takeWhile_append_dropWhile (p := returns) (l := calls), htake]
    simp
  rw [firstSaver_eq hret] at hsaved
  obtain ⟨h₁, h₂⟩ := h pre call _ hcalls hret saved hsaved
  exact Prod.ext h₁ h₂

/-- Runs are sound exactly when the sampled word determines the weight. -/
theorem weight_cache_sound_iff (calls : List Call) : CacheSound calls ↔ SampleDetermines calls :=
  ⟨sampleDetermines_of_cacheSound, cacheSound_of_sampleDetermines⟩

/-! ### A collision -/

/-- A `[256][4096]` weight whose bytes are zero but for the last. -/
def zerosThen (zeros : ℕ) (last : UInt8) : RawWeight where
  bshape := ⟨1, 1, 256, 4096⟩
  transposed := false
  data := List.replicate zeros 0 ++ [last]

theorem zerosThen_length (zeros : ℕ) (last : UInt8) :
    (zerosThen zeros last).data.length = zeros + 1 := by simp [zerosThen]

theorem zerosThen_inj {zeros : ℕ} {a b : UInt8} (h : zerosThen zeros a = zerosThen zeros b) :
    a = b := by
  have hlast := congrArg (fun w : RawWeight => w.data.getLast?) h
  simpa [zerosThen] using hlast

theorem w_key_zerosThen {zeros : ℕ} (h4 : 4 ≤ zeros) (h : zeros < 2 ^ 32) (last : UInt8) :
    w_key (zerosThen zeros last) = some 0 := by
  have hlen := zerosThen_length zeros last
  have hbyte : ∀ i, i < 4 → (zerosThen zeros last).data.getD i 0 = 0 := by
    intro i hi
    rw [zerosThen, List.getD_eq_getElem?_getD,
      List.getElem?_append_left (by rw [List.length_replicate]; omega), List.getElem?_replicate,
        if_pos (by omega), Option.getD_some]
  rw [w_key_eq_first (by omega) (by omega), w_addr_ptr, hbyte _ (by norm_num), hbyte _ (by norm_num),
    hbyte _ (by norm_num), hbyte _ (by norm_num)]
  rfl

/-- The second of two weights that differ in one late byte is answered with the first one's buffer. -/
theorem not_cacheSound_of_late_byte {zeros : ℕ} (h4 : 4 ≤ zeros) (h : zeros < 2 ^ 32) {a b : UInt8}
    (hab : a ≠ b) :
    ¬ CacheSound [⟨zerosThen zeros a, .I_X_W, true⟩, ⟨zerosThen zeros b, .I_X_W, true⟩] := by
  intro hsound
  have hdet := sampleDetermines_of_cacheSound hsound [⟨zerosThen zeros a, .I_X_W, true⟩]
    ⟨zerosThen zeros b, .I_X_W, true⟩ [] rfl (by simp [returns, w_key_zerosThen h4 h])
    ⟨zerosThen zeros a, .I_X_W, true⟩ (by simp [firstSaving, w_key_zerosThen h4 h])
  exact hab (zerosThen_inj hdet.1)

theorem weight_cache_collides :
    (zerosThen 2097151 0).data.length = byteSize (zerosThen 2097151 0).bshape ∧
      (zerosThen 2097151 1).data.length = byteSize (zerosThen 2097151 1).bshape ∧
      ¬ CacheSound [⟨zerosThen 2097151 0, .I_X_W, true⟩, ⟨zerosThen 2097151 1, .I_X_W, true⟩] :=
  ⟨zerosThen_length _ _, zerosThen_length _ _,
    not_cacheSound_of_late_byte (by norm_num) (by norm_num) (by decide)⟩

end PimLibrary.Runtime
