import PimLibrary.Program.Encoding
import PimLibrary.Program.PimUnit

/-! The program cache of `PimCrfBinGen`.

    The command vector is a member that each `make_crf_bin` starts from, and the cache keeps one device
    buffer for an operation and a data size. The six operations assign all of the vector, so a
    program is decided by the operation, the loop count and the flag; what the run has to preserve
    is that no buffer in the cache is written again. -/

namespace PimLibrary.Program
open PimCommand

/-! ### The generator -/

def CRF_BIN_SIZE : ℕ := 32

/-- `max_crf_size_`, in bytes. -/
def max_crf_size : ℕ := 128

/-- The members, and the words of the device buffers in the order of their allocation; an address is the
    number of its buffer. -/
structure PimCrfBinGen where
  is_gemv_tile_tree_ : Bool := true
  cmds_ : List PimCommand := []
  crf_lut_ : PimOpType × ℤ → Option ℕ := fun _ => none
  device : List (List ℕ) := []

/-- `std::map::insert`: a key that is there keeps its value. -/
def map_insert {κ α : Type} [DecidableEq κ] (m : κ → Option α) (k : κ) (v : α) : κ → Option α :=
  match m k with
  | some _ => m
  | none => Function.update m k (some v)

theorem map_insert_apply {κ α : Type} [DecidableEq κ] (m : κ → Option α) (k : κ) (v : α) (k' : κ) :
    map_insert m k v k' = if k' = k then some ((m k).getD v) else m k' := by
  rw [map_insert]
  rcases hkey : m k with - | w
  · simp [Function.update_apply]
  · split_ifs with hsame
    · rw [hsame]
      exact hkey
    · rfl

namespace PimCrfBinGen

/-- The commands become the member, and their words the start of the buffer. -/
def gen_binary_with_loop (g : PimCrfBinGen) (op_type : PimOpType) (lc : ℤ) (bin_buf : List ℕ) :
    PimCrfBinGen × List ℕ × ℕ :=
  let cmds := create_pim_cmd g.is_gemv_tile_tree_ g.cmds_ op_type lc
  let words := change_to_binary cmds
  ({ g with cmds_ := cmds }, words ++ bin_buf.drop words.length, words.length * 4)

/-- `fresh n` is what `new` finds in the host buffer of the `n`-th program. -/
def make_crf_bin (fresh : ℕ → ℕ → ℕ) (g : PimCrfBinGen) (op_type : PimOpType) (data_size : ℤ) :
    PimCrfBinGen × ℕ :=
  let h_crf := (List.range (max_crf_size / 4)).map (fresh g.device.length)
  let d_crf := g.device.length
  let lc := get_loop_counter g.is_gemv_tile_tree_ op_type data_size
  let (g, h_crf, _) := g.gen_binary_with_loop op_type lc h_crf
  ({ g with
      device := g.device ++ [h_crf.take (max_crf_size / 4)]
      crf_lut_ := map_insert g.crf_lut_ (op_type, data_size) d_crf }, d_crf)

def find_crf (g : PimCrfBinGen) (op_type : PimOpType) (data_size : ℤ) : Option ℕ :=
  g.crf_lut_ (op_type, data_size)

end PimCrfBinGen

inductive CrfCall where
  | find (op_type : PimOpType) (data_size : ℤ)
  | make (op_type : PimOpType) (data_size : ℤ)
  deriving DecidableEq, Repr

namespace CrfCall

def op_type : CrfCall → PimOpType
  | find op_type _ | make op_type _ => op_type

def data_size : CrfCall → ℤ
  | find _ data_size | make _ data_size => data_size

/-- The operations that programs are made for. -/
def ops : List PimOpType := [.OP_ELT_ADD, .OP_ELT_MUL, .OP_RELU, .OP_COPY, .OP_BN, .OP_GEMV]

/-- One of the operations, on a positive `int`. -/
structure WellFormed (call : CrfCall) : Prop where
  op : call.op_type ∈ ops
  pos : 0 < call.data_size
  int : call.data_size < 2 ^ 31

/-- The generator after the call, and the address it answers. -/
def exec (fresh : ℕ → ℕ → ℕ) (g : PimCrfBinGen) : CrfCall → PimCrfBinGen × Option ℕ
  | find op_type data_size => (g, g.find_crf op_type data_size)
  | make op_type data_size =>
    let made := g.make_crf_bin fresh op_type data_size
    (made.1, some made.2)

/-- The generator after a sequence of calls. -/
def run (fresh : ℕ → ℕ → ℕ) (g : PimCrfBinGen) (calls : List CrfCall) : PimCrfBinGen :=
  calls.foldl (fun g call => (call.exec fresh g).1) g

end CrfCall

/-! ### What a program looks like -/

/-- The words of an operation, a loop count and the flag, from an empty command vector. -/
def crf_program (is_gemv_tile_tree_ : Bool) (op_type : PimOpType) (lc : ℤ) : List ℕ :=
  change_to_binary (create_pim_cmd is_gemv_tile_tree_ [] op_type lc)

/-- The bytes that the executor programs for an operation. -/
def crf_size (op_type : PimOpType) : ℕ := if op_type = .OP_BN then 2 * CRF_BIN_SIZE else CRF_BIN_SIZE

/-- The program is all of what is copied and programmed, it ends, and its loops lead back into it. -/
structure WellShaped (op_type : PimOpType) (words : List ℕ) : Prop where
  copied : words.length * 4 ≤ max_crf_size
  programmed : crf_size op_type ≤ words.length * 4
  ends : .EXIT ∈ words.map typeOf
  exit_fits : ((words.map typeOf).idxOf .EXIT + 1) * 4 ≤ crf_size op_type
  jumps_back : ∀ i word, words[i]? = some word → typeOf word = .JUMP →
    ∃ target, jumpTarget i (from_int {} word) = some target ∧ target < i

variable {tree : Bool} {op_type : PimOpType} {lc : ℤ}

/-- None of the operations keeps anything of the call before. -/
theorem create_pim_cmd_forgets (hop : op_type ∈ CrfCall.ops) (cmds_ : List PimCommand) :
    create_pim_cmd tree cmds_ op_type lc = create_pim_cmd tree [] op_type lc := by
  cases op_type with
  | OP_GEMM => simp [CrfCall.ops] at hop
  | OP_DUMMY => simp [CrfCall.ops] at hop
  | _ => rfl

/-- A command without its counter. -/
def uncounted (c : PimCommand) : PimCommand := { c with loop_counter_ := 0 }

/-- Up to the counters a program depends on the count only in whether a tiled GEMV loops at all. -/
theorem create_pim_cmd_uncounted (hop : op_type ∈ CrfCall.ops) (tree : Bool) (lc : ℤ) :
    ∃ k ∈ [(0 : ℤ), 1],
    (create_pim_cmd tree [] op_type lc).map uncounted =
      (create_pim_cmd tree [] op_type k).map uncounted := by
  by_cases hlc : lc = 0
  · exact ⟨0, by simp, by rw [hlc]⟩
  · refine ⟨1, by simp, ?_⟩
    cases op_type with
    | OP_GEMM => simp [CrfCall.ops] at hop
    | OP_DUMMY => simp [CrfCall.ops] at hop
    | OP_GEMV => cases tree <;> simp [create_pim_cmd, assign_cmds, uncounted, jump, hlc]
    | _ => simp [create_pim_cmd, assign_cmds, uncounted, jump]

/-- What the words of a program are judged by: types and offsets. -/
structure Shape (op_type : PimOpType) (cmds : List PimCommand) : Prop where
  copied : cmds.length * 4 ≤ max_crf_size
  programmed : crf_size op_type ≤ cmds.length * 4
  ends : .EXIT ∈ cmds.map type_
  exit_fits : ((cmds.map type_).idxOf .EXIT + 1) * 4 ≤ crf_size op_type
  offset : ∀ p ∈ cmds.zipIdx, p.1.type_ = .JUMP → 2 ≤ p.1.loop_offset_ ∧ p.1.loop_offset_ ≤
    p.2 + 1 ∧ p.2 < 32

theorem Shape.of_uncounted {cmds : List PimCommand} (h : Shape op_type (cmds.map uncounted)) :
    Shape op_type cmds := by
  have htypes : (cmds.map uncounted).map type_ = cmds.map type_ := by simp [uncounted]
  refine ⟨?_, ?_, htypes ▸ h.ends, htypes ▸ h.exit_fits, ?_⟩
  · simpa using h.copied
  · simpa using h.programmed
  · rintro ⟨c, i⟩ hc hjump
    exact h.offset (uncounted c, i) (by rw [List.zipIdx_map]; exact List.mem_map_of_mem hc) hjump

theorem shape_uncounted : ∀ op_type ∈ CrfCall.ops, ∀ tree, ∀ k ∈ [(0 : ℤ), 1],
    Shape op_type ((create_pim_cmd tree [] op_type k).map uncounted) := by
  intro op_type hop tree k hk
  refine ⟨?_, ?_, ?_, ?_, ?_⟩ <;> revert op_type tree k <;> decide

theorem create_pim_cmd_shape (hop : op_type ∈ CrfCall.ops) :
    Shape op_type (create_pim_cmd tree [] op_type lc) := by
  obtain ⟨k, hk, heq⟩ := create_pim_cmd_uncounted hop tree lc
  refine .of_uncounted ?_
  rw [heq]
  exact shape_uncounted op_type hop tree k hk

/-- A JUMP decodes with its offset. -/
theorem from_int_offset {c : PimCommand} (hjump : c.type_ = .JUMP) (h0 : 0 ≤ c.loop_offset_)
    (hlt : c.loop_offset_ < 2 ^ 11) : (from_int {} (to_int c)).loop_offset_ = c.loop_offset_ := by
  have hword : to_int c = to_int (jump .JUMP c.loop_counter_ c.loop_offset_) := by
    simp [to_int, jump, hjump]
  rw [hword, from_int_jump, field_eq (v := c.loop_offset_) h0 hlt (by norm_num)]
  rfl

theorem Shape.words {cmds : List PimCommand} (h : Shape op_type cmds) :
    WellShaped op_type (change_to_binary cmds) := by
  have htypes : (change_to_binary cmds).map typeOf = cmds.map type_ := by
    simp [change_to_binary, PimCommand.typeOf_to_int]
  have hlen : (change_to_binary cmds).length = cmds.length := by simp [change_to_binary]
  refine ⟨hlen ▸ h.copied, hlen ▸ h.programmed, htypes ▸ h.ends, htypes ▸ h.exit_fits, ?_⟩
  intro i word hword hjump
  obtain ⟨c, hc, rfl⟩ : ∃ c, cmds[i]? = some c ∧ to_int c = word := by
    simpa [change_to_binary] using hword
  rw [PimCommand.typeOf_to_int] at hjump
  obtain ⟨hback, hstart, hsmall⟩ : 2 ≤ c.loop_offset_ ∧ c.loop_offset_ ≤ i + 1 ∧ i < 32 :=
    h.offset (c, i) (List.mk_mem_zipIdx_iff_getElem?.mpr hc) hjump
  have hoff := from_int_offset hjump (by omega) (by omega)
  refine ⟨((i : ℤ) - c.loop_offset_ + 1).toNat, ?_, by omega⟩
  rw [jumpTarget, hoff, if_pos (by omega)]

/-- The program of each operation is well shaped for every loop count. -/
theorem crf_program_wellShaped (hop : op_type ∈ CrfCall.ops) (tree : Bool) (lc : ℤ) :
    WellShaped op_type (crf_program tree op_type lc) :=
  (create_pim_cmd_shape hop).words

/-! ### Runs of calls -/

namespace PimCrfBinGen

/-- The buffer at an address starts with the program. -/
def Holds (g : PimCrfBinGen) (d : ℕ) (words : List ℕ) : Prop :=
  ∃ buf, g.device[d]? = some buf ∧ words <+: buf

/-- The program that a call is owed. -/
def owed (g : PimCrfBinGen) (op_type : PimOpType) (data_size : ℤ) : List ℕ :=
  crf_program g.is_gemv_tile_tree_ op_type (get_loop_counter g.is_gemv_tile_tree_ op_type data_size)

/-- Every buffer in the map holds the program of its key. -/
def Valid (g : PimCrfBinGen) : Prop :=
  ∀ op_type data_size d, g.find_crf op_type data_size = some d → g.Holds d (g.owed op_type data_size)

variable {fresh : ℕ → ℕ → ℕ} {g g' : PimCrfBinGen}

/-- What a call leaves alone. -/
structure Frame (g g' : PimCrfBinGen) : Prop where
  flag : g'.is_gemv_tile_tree_ = g.is_gemv_tile_tree_
  device : g.device <+: g'.device
  kept : ∀ op_type data_size d, g.find_crf op_type data_size = some d →
    g'.find_crf op_type data_size = some d

theorem Frame.refl (g : PimCrfBinGen) : Frame g g := ⟨rfl, List.prefix_refl _, fun _ _ _ h => h⟩

theorem Frame.trans {g'' : PimCrfBinGen} (h : Frame g g') (h' : Frame g' g'') : Frame g g'' :=
  ⟨h'.flag.trans h.flag, h.device.trans h'.device, fun op size d hd =>
    h'.kept op size d (h.kept op size d hd)⟩

theorem Frame.holds (h : Frame g g') {d : ℕ} {words : List ℕ} (hd : g.Holds d words) :
    g'.Holds d words := by
  obtain ⟨buf, hbuf, hwords⟩ := hd
  obtain ⟨more, hmore⟩ := h.device
  have hlt : d < g.device.length := (List.getElem?_eq_some_iff.mp hbuf).1
  exact ⟨buf, by rw [← hmore, List.getElem?_append_left hlt, hbuf], hwords⟩

theorem Frame.owed (h : Frame g g') (op_type : PimOpType) (data_size : ℤ) :
    g'.owed op_type data_size = g.owed op_type data_size := by
  rw [PimCrfBinGen.owed, PimCrfBinGen.owed, h.flag]

/-- A new program goes to a buffer of its own, and into the map unless its key is taken. -/
structure Made (g g' : PimCrfBinGen) (d : ℕ) (op_type : PimOpType) (data_size : ℤ) : Prop where
  flag : g'.is_gemv_tile_tree_ = g.is_gemv_tile_tree_
  device : g.device <+: g'.device
  holds : g'.Holds d (g.owed op_type data_size)
  find : ∀ op_type' data_size', g'.find_crf op_type' data_size' =
    if (op_type', data_size') = (op_type, data_size) then some ((g.find_crf op_type data_size).getD d)
    else g.find_crf op_type' data_size'

theorem make_crf_bin_made (hop : op_type ∈ CrfCall.ops) (data_size : ℤ) :
    Made g (g.make_crf_bin fresh op_type data_size).1 (g.make_crf_bin fresh op_type data_size).2
      op_type data_size := by
  set lc := get_loop_counter g.is_gemv_tile_tree_ op_type data_size with hlc
  have hwords : change_to_binary (create_pim_cmd g.is_gemv_tile_tree_ g.cmds_ op_type lc) =
      g.owed op_type data_size := by
    rw [create_pim_cmd_forgets hop]
    rfl
  have hlen : (g.owed op_type data_size).length ≤ max_crf_size / 4 := by
    have hcopied := (crf_program_wellShaped hop g.is_gemv_tile_tree_ lc).copied
    exact (Nat.le_div_iff_mul_le (by norm_num)).mpr hcopied
  refine ⟨rfl, List.prefix_append _ _, ?_, ?_⟩
  · refine ⟨_, List.getElem?_concat_length .., ?_⟩
    simp only [← hlc, hwords]
    rw [List.take_append, List.take_of_length_le hlen]
    exact List.prefix_append _ _
  · intro op size
    exact map_insert_apply g.crf_lut_ (op_type, data_size) g.device.length (op, size)

theorem Made.frame {d : ℕ} {data_size : ℤ} (h : Made g g' d op_type data_size) : Frame g g' := by
  refine ⟨h.flag, h.device, ?_⟩
  intro op size d' hd
  rw [h.find]
  split_ifs with hsame
  · obtain ⟨rfl, rfl⟩ := Prod.mk.inj hsame
    rw [hd, Option.getD_some]
  · exact hd

theorem Made.valid {d : ℕ} {data_size : ℤ} (h : Made g g' d op_type data_size)
    (hvalid : g.Valid) : g'.Valid := by
  intro op size d' hd
  rw [h.find] at hd
  rw [h.frame.owed]
  split_ifs at hd with hsame
  · obtain ⟨rfl, rfl⟩ := Prod.mk.inj hsame
    obtain rfl := Option.some.inj hd
    cases hkey : g.find_crf op size with
    | none => exact h.holds
    | some d' => exact h.frame.holds (hvalid op size d' hkey)
  · exact h.frame.holds (hvalid op size d' hd)

end PimCrfBinGen

namespace CrfCall
open PimCrfBinGen

variable {fresh : ℕ → ℕ → ℕ} {g : PimCrfBinGen}

theorem exec_frame {call : CrfCall} (hcall : call.WellFormed) : Frame g (call.exec fresh g).1 := by
  cases call with
  | find op_type data_size => exact .refl g
  | make op_type data_size => exact (make_crf_bin_made hcall.op data_size).frame

theorem exec_valid {call : CrfCall} (hcall : call.WellFormed) (h : g.Valid) :
    (call.exec fresh g).1.Valid := by
  cases call with
  | find op_type data_size => exact h
  | make op_type data_size => exact (make_crf_bin_made hcall.op data_size).valid h

/-- An answered address holds the program that the call is owed. -/
theorem exec_holds {call : CrfCall} (hcall : call.WellFormed) (h : g.Valid) {d : ℕ}
    (hd : (call.exec fresh g).2 = some d) : (call.exec fresh g).1.Holds d
      (g.owed call.op_type call.data_size) := by
  cases call with
  | find op_type data_size => exact h op_type data_size d hd
  | make op_type data_size =>
    obtain rfl := Option.some.inj hd
    exact (make_crf_bin_made hcall.op data_size).holds

theorem run_frame (calls : List CrfCall) (hcalls : ∀ call ∈ calls, call.WellFormed) :
    Frame g (run fresh g calls) := by
  induction calls generalizing g with
  | nil => exact .refl g
  | cons call calls ih =>
    obtain ⟨hcall, hcalls⟩ := List.forall_mem_cons.mp hcalls
    exact (exec_frame hcall).trans (ih hcalls)

theorem run_valid (calls : List CrfCall) (hcalls : ∀ call ∈ calls, call.WellFormed) (h : g.Valid) :
    (run fresh g calls).Valid := by
  induction calls generalizing g with
  | nil => exact h
  | cons call calls ih =>
    obtain ⟨hcall, hcalls⟩ := List.forall_mem_cons.mp hcalls
    exact ih hcalls (exec_valid hcall h)

/-- The map knows a key once a program has been made for it. -/
theorem find_run_eq_none_iff (calls : List CrfCall) (hcalls : ∀ call ∈ calls, call.WellFormed)
    (op_type : PimOpType)
    (data_size : ℤ) : (run fresh g calls).find_crf op_type data_size = none ↔
      g.find_crf op_type data_size = none ∧ make op_type data_size ∉ calls := by
  induction calls generalizing g with
  | nil => simp [run]
  | cons call calls ih =>
    obtain ⟨hcall, hcalls⟩ := List.forall_mem_cons.mp hcalls
    have hrest := ih (g := (call.exec fresh g).1) hcalls
    rw [run, List.foldl_cons, ← run, hrest, List.mem_cons, not_or, ← and_assoc]
    refine and_congr_left fun _ => ?_
    cases call with
    | find op size => simp [exec]
    | make op size =>
      have hop : op ∈ ops := hcall.op
      simp only [exec]
      rw [(make_crf_bin_made hop size).find]
      by_cases hsame : (op_type, data_size) = (op, size)
      · obtain ⟨rfl, rfl⟩ := Prod.mk.inj hsame
        simp
      · rw [if_neg hsame]
        simp only [Prod.mk.injEq] at hsame
        simp [hsame]

end CrfCall

open CrfCall

/-- In every run of calls an answer depends on the operation, the loop count and the flag alone, and
    keeps to the shape of programs; a search fails exactly when no program was made for its key. -/
theorem crf_programs (fresh : ℕ → ℕ → ℕ) (tree : Bool) (pre post : List CrfCall) (call : CrfCall)
    (hcalls : ∀ c ∈ pre ++ call :: post, c.WellFormed) :
    let lc := get_loop_counter tree call.op_type call.data_size
    let answer := (call.exec fresh (run fresh { is_gemv_tile_tree_ := tree } pre)).2
    (answer = none ↔ call = .find call.op_type call.data_size ∧ make call.op_type call.data_size ∉ pre) ∧
      (∀ d, answer = some d →
        (run fresh { is_gemv_tile_tree_ := tree } (pre ++ call :: post)).Holds d
          (crf_program tree call.op_type lc)) ∧
      WellShaped call.op_type (crf_program tree call.op_type lc) := by
  intro lc answer
  obtain ⟨hpre, hcall, hpost⟩ : (∀ c ∈ pre, c.WellFormed) ∧ call.WellFormed ∧
      ∀ c ∈ post, c.WellFormed := by
    simpa [or_imp, forall_and] using hcalls
  set g : PimCrfBinGen := { is_gemv_tile_tree_ := tree } with hg
  have hvalid : (run fresh g pre).Valid := run_valid pre hpre (by intro op size d hd; cases hd)
  refine ⟨?_, ?_, crf_program_wellShaped hcall.op tree lc⟩
  · cases call with
    | find op size =>
      have hfind : (run fresh g pre).find_crf op size = none ↔ g.find_crf op size = none ∧
          make op size ∉ pre :=
        find_run_eq_none_iff pre hpre op size
      simpa [answer, exec, op_type, data_size, g, PimCrfBinGen.find_crf] using hfind
    | make op size => simp [answer, exec]
  · intro d hd
    have hholds := exec_holds hcall hvalid hd
    rw [(run_frame pre hpre).owed] at hholds
    have hlater : PimCrfBinGen.Frame (call.exec fresh (run fresh g pre)).1
        (run fresh (call.exec fresh (run fresh g pre)).1 post) := run_frame post hpost
    rw [run, List.foldl_append, List.foldl_cons]
    exact hlater.holds hholds

/-- An addition made, found again, and a batch normalisation made afterwards. -/
theorem crf_programs_add :
    let pre : List CrfCall := [.make .OP_ELT_ADD 524288]
    let answer := ((CrfCall.find .OP_ELT_ADD 524288).exec (fun _ _ => 0) (run (fun _ _ => 0) {} pre)).2
    (answer = none ↔ CrfCall.find .OP_ELT_ADD 524288 = .find .OP_ELT_ADD 524288 ∧
      make .OP_ELT_ADD 524288 ∉ pre) ∧
      (∀ d, answer = some d →
        (run (fun _ _ => 0) {} (pre ++ .find .OP_ELT_ADD 524288 :: [.make .OP_BN 524288])).Holds d
        (crf_program true .OP_ELT_ADD (get_loop_counter true .OP_ELT_ADD 524288))) ∧
      WellShaped .OP_ELT_ADD (crf_program true .OP_ELT_ADD (get_loop_counter true .OP_ELT_ADD 524288)) :=
  crf_programs (fun _ _ => 0) true [.make .OP_ELT_ADD 524288] [.make .OP_BN 524288]
    (.find .OP_ELT_ADD 524288) (by
    intro c hc
    simp only [List.cons_append, List.nil_append, List.mem_cons, List.not_mem_nil, or_false] at hc
    rcases hc with rfl | rfl | rfl <;> exact ⟨by decide, by decide, by decide⟩)

end PimLibrary.Program
