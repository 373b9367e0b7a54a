import PimLibrary.Runtime.HostPreload
import PimLibrary.Layout.DeviceAgree

/-! The device path of `get_preloaded_pim_gemm_weight` against the host conversion of the logical
    weight.

    The device path transposes nothing, and the index formulas of its kernels see neither the gemm order
    nor the transposed flag: whatever the weight, they take `h` for the in-dimension and `[h][w]`
    for the stored layout. That is the layout of an untransposed `I_X_W` weight. A transposed
    `W_X_I` weight of equal sides has the same one; for every other weight some early element tells
    the two paths apart. -/

namespace PimLibrary.Runtime
open Schemes.Word Schemes.Scatter PimLibrary.Device PimLibrary.Layout

attribute [local irreducible] int32

/-! ### The two paths -/

/-- The kernel that `convert_data_layout` launches on the device. -/
def convert_on_device (emulator : Bool) (gemm_order : PimGemmOrder) (src : PimBo) :
    Mem → List (ℤ × Half) :=
  if check_chwise_gemm_bo src gemm_order then launch_chwise emulator src
    else launch_aligned emulator src

/-- The loop that `convert_data_layout` runs on the host. -/
def convert_on_host (emulator : Bool) (gemm_order : PimGemmOrder) (src : PimBo) :
    Except ℤ (List Copy) :=
  if check_chwise_gemm_bo src gemm_order then
    .ok (convert_data_layout_for_chwise_gemm_weight emulator gemm_order src)
  else convert_data_layout_for_aligned_gemm_weight emulator gemm_order src

/-- `pre_wei` of the device path: a new buffer that holds `held`, after the launch's writes in some
    order. -/
def device_pre_wei (s : PimBShape) (held : Mem) (schedule : List (ℤ × Half)) : Option Buffer := do
  let pre_wei ← create_bo s held
  return { pre_wei with data := scatter pre_wei.data schedule }

/-- Whatever the weight, the schedule and the buffers hold, the device path leaves the elements that the
    host loop makes of the logical weight. -/
def DeviceHonours (emulator : Bool) (gemm_order : PimGemmOrder) (transposed : Bool)
    (s : PimBShape) : Prop :=
  ∃ copies, convert_on_host emulator gemm_order (PimCreateBo s) = .ok copies ∧
    ∀ data held schedule, schedule.Perm (convert_on_device emulator gemm_order (PimCreateBo s) data) →
      ∃ buf, device_pre_wei s held schedule = some buf ∧ Fits s buf ∧
        ∀ mem reordered, HoldsLogical gemm_order transposed s data mem → ∀ e : ℕ, e < byteSize s / 2 →
          buf.data e = scatter reordered (copies.flatMap (copy_halves mem)) e

/-! ### The host loop, element by element -/

/-- With distinct destinations every element copied stays. -/
theorem host_element (mem reordered : Mem) {copies : List Copy} {cp : Copy} {e : ℕ}
    (hdvd : ∀ cp ∈ copies, (32 : ℤ) ∣ cp.dst) (hnd : (copies.map Copy.dst).Nodup) (hcp : cp ∈ copies)
    (he : e < 16) :
    scatter reordered (copies.flatMap (copy_halves mem)) (cp.dst / 2 + e) = mem (cp.src / 2 + e) := by
  refine scatter_eq ⟨_,
    List.mem_flatMap.mpr ⟨cp, hcp, List.mem_map.mpr ⟨e, List.mem_range.mpr he, rfl⟩⟩, rfl⟩ ?_
  intro w hw heq
  obtain ⟨cp', hcp', hmem⟩ := List.mem_flatMap.mp hw
  obtain ⟨e', he', rfl⟩ := List.mem_map.mp hmem
  have he' := List.mem_range.mp he'
  have hd := hdvd cp hcp
  have hd' := hdvd cp' hcp'
  have heq : cp'.dst / 2 + (e' : ℤ) = cp.dst / 2 + e := heq
  obtain rfl : e' = e := by omega
  obtain rfl : cp' = cp := List.inj_on_of_nodup_map hnd hcp' hcp (by omega)
  rfl

/-- As many copies as transactions have distinct destinations when they reach every element. -/
theorem nodup_of_cover {copies : List Copy} {mem : Mem} {total : ℕ} (h32 : 32 ∣ total)
    (hdvd : ∀ cp ∈ copies, (32 : ℤ) ∣ cp.dst) (hlen : copies.length = total / 32)
    (hcover : ∀ e : ℕ, e < total / 2 → ∃ w ∈ copies.flatMap (copy_halves mem), w.1 = e) :
    (copies.map Copy.dst).Nodup := by
  have hsub : transactionOffsets total ⊆ copies.map Copy.dst := by
    intro v hv
    obtain ⟨t, ht, rfl⟩ := List.mem_map.mp hv
    have ht := List.mem_range.mp ht
    obtain ⟨w, hw, heq⟩ := hcover (16 * t) (by omega)
    obtain ⟨cp, hcp, hmem⟩ := List.mem_flatMap.mp hw
    obtain ⟨e, he, rfl⟩ := List.mem_map.mp hmem
    have he := List.mem_range.mp he
    have hd := hdvd cp hcp
    have heq : cp.dst / 2 + (e : ℤ) = ((16 * t : ℕ) : ℤ) := heq
    exact List.mem_map.mpr ⟨cp, hcp, by omega⟩
  have hperm := (List.subperm_of_subset (nodup_transactionOffsets total) hsub).perm_of_length_le
    (by simp [transactionOffsets, hlen])
  exact hperm.nodup_iff.mp (nodup_transactionOffsets total)

/-- Every layout of a weight has a logical weight. -/
theorem exists_holdsLogical (gemm_order : PimGemmOrder) (transposed : Bool) (s : PimBShape)
    (data : Mem) :
    ∃ mem, HoldsLogical gemm_order transposed s data mem := by
  refine ⟨fun e => data (stored gemm_order transposed s (e.toNat / inDim s gemm_order / outDim s gemm_order)
    (e.toNat / inDim s gemm_order % outDim s gemm_order) (e.toNat % inDim s gemm_order) : ℕ), ?_⟩
  intro m o i _ ho hi
  have hrow : logical gemm_order s m o i / inDim s gemm_order = m * outDim s gemm_order + o := by
    rw [logical, Nat.mul_comm, Nat.mul_add_div (by omega), Nat.div_eq_of_lt hi, Nat.add_zero]
  have hi' : logical gemm_order s m o i % inDim s gemm_order = i := by
    rw [logical, Nat.mul_comm, Nat.mul_add_mod, Nat.mod_eq_of_lt hi]
  have hm : (m * outDim s gemm_order + o) / outDim s gemm_order = m := by
    rw [Nat.mul_comm, Nat.mul_add_div (by omega), Nat.div_eq_of_lt ho, Nat.add_zero]
  have ho' : (m * outDim s gemm_order + o) % outDim s gemm_order = o := by
    rw [Nat.mul_comm, Nat.mul_add_mod, Nat.mod_eq_of_lt ho]
  simp only [Int.toNat_natCast, hrow, hi', hm, ho']

/-! ### What agreement gives -/

section Agree

variable {emulator : Bool} {gemm_order : PimGemmOrder} {transposed : Bool} {s : PimBShape}

/-- The launch's own order is one of the schedules. -/
theorem DeviceHonours.agree (h : DeviceHonours emulator gemm_order transposed s) :
    ∃ copies, convert_on_host emulator gemm_order (PimCreateBo s) = .ok copies ∧
      ∀ data held mem reordered, HoldsLogical gemm_order transposed s data mem →
        ∀ e : ℕ, e < byteSize s / 2 →
          scatter held (convert_on_device emulator gemm_order (PimCreateBo s) data) e =
            scatter reordered (copies.flatMap (copy_halves mem)) e := by
  obtain ⟨copies, hok, hall⟩ := h
  refine ⟨copies, hok, fun data held mem reordered hmem e he => ?_⟩
  obtain ⟨buf, hbuf, -, hdata⟩ := hall data held _ (List.Perm.refl _)
  rw [← hdata mem reordered hmem e he]
  rcases hbo : create_bo s held with - | b
  · simp [device_pre_wei, hbo] at hbuf
  · have hheld : b.data = held := by
      rw [create_bo, alloc_memory] at hbo
      split_ifs at hbo
      obtain rfl := Option.some.inj hbo
      rfl
    simp only [device_pre_wei, hbo, Option.bind_eq_bind, Option.bind_some] at hbuf
    obtain rfl := Option.some.inj hbuf
    rw [hheld]

/-- The size fits an `int`. -/
theorem DeviceHonours.size_lt (h : DeviceHonours emulator gemm_order transposed s) :
    byteSize s < 2 ^ 31 := by
  obtain ⟨copies, -, hall⟩ := h
  obtain ⟨buf, hbuf, hfit, -⟩ := hall (fun _ => 0) (fun _ => 0) _ (List.Perm.refl _)
  by_contra hge
  rw [not_lt] at hge
  rcases hbo : create_bo s (fun _ => 0) with - | b
  · simp [device_pre_wei, hbo] at hbuf
  · simp only [device_pre_wei, hbo, Option.bind_eq_bind, Option.bind_some] at hbuf
    obtain rfl := Option.some.inj hbuf
    exact create_bo_large hge hbo hfit

/-- The host loop reaches every element: otherwise what the buffer held would show. -/
theorem cover_of_agree {copies : List Copy}
    (h : ∀ data held mem reordered, HoldsLogical gemm_order transposed s data mem → ∀ e : ℕ, e <
      byteSize s / 2 →
      scatter held (convert_on_device emulator gemm_order (PimCreateBo s) data) e =
        scatter reordered (copies.flatMap (copy_halves mem)) e) {e : ℕ} (he : e < byteSize s / 2) :
    ∃ w ∈ copies.flatMap (copy_halves fun _ => 0), w.1 = (e : ℤ) := by
  by_contra hnone
  have hframe : ∀ w ∈ copies.flatMap (copy_halves fun _ => 0), w.1 ≠ (e : ℤ) :=
    fun w hw heq => hnone ⟨w, hw, heq⟩
  have hzero := h (fun _ => 0) (fun _ => 0) (fun _ => 0) (fun _ => 0) (fun _ _ _ _ _ _ => rfl) e he
  have hone := h (fun _ => 0) (fun _ => 0) (fun _ => 0) (fun _ => 1) (fun _ _ _ _ _ _ => rfl) e he
  rw [scatter_frame hframe] at hzero hone
  exact absurd (hzero.symm.trans hone) (by decide)

end Agree

/-! ### Untransposed `I_X_W` weights -/

section Rows

variable (emulator : Bool) {s : PimBShape}

/-- Within its domain an `I_X_W` weight is whole tiles; the host loop copies it exactly and the launch
    agrees with it. -/
theorem rows_agree (hs : SizedWeight s) (hout : s.w.toNat ≤ 4096) (hin : 256 ∣ s.h.toNat)
    (hrows : 4096 ∣ matrices s * s.w.toNat) :
    ∃ copies, convert_on_host emulator .I_X_W (PimCreateBo s) = .ok copies ∧
      ExactCopy (byteSize s) copies ∧
      SameBuffer copies (convert_on_device emulator .I_X_W (PimCreateBo s)) (PimCreateBo s) := by
  rcases Nat.lt_or_ge s.w.toNat 4096 with hlt | hge
  · have hacc : check_chwise_gemm_bo (PimCreateBo s) .I_X_W = true :=
      (check_chwise_gemm_bo_iff _ _).mpr ⟨hlt, hrows⟩
    rcases tiledWeight_of_accepted hacc hin hs.size_lt with h0 | ⟨k, I, ht⟩
    · exact absurd hs.size_pos (by omega)
    refine ⟨_, if_pos hacc, exactCopy_of_stride hacc hin hs.size_lt (Or.inl rfl), ?_⟩
    rw [convert_on_device, if_pos hacc]
    exact sameBuffer_chwise ht
  · have hw : s.w.toNat = 4096 := by omega
    have hacc : ¬ check_chwise_gemm_bo (PimCreateBo s) .I_X_W = true := by
      rw [check_chwise_gemm_bo_iff]
      rintro ⟨hlt, -⟩
      have hlt : s.w.toNat < 4096 := hlt
      omega
    obtain ⟨k, hk⟩ := hin
    have hk0 : 0 < k := by
      have := hs.h_pos
      omega
    obtain ⟨copies, hok, hsame⟩ := alignedAgree_of_single emulator hs.matrices_pos hk hk0 hw
      hs.size_lt
    obtain ⟨htotal, hok'⟩ := convert_aligned_ok emulator .I_X_W hs.matrices_pos hk hk0
      (Y := 1) (by rw [outDim, hw]) one_pos hs.size_lt
    refine ⟨copies, by rw [convert_on_host, if_neg hacc, hok], ?_, ?_⟩
    · obtain rfl := Except.ok.inj (hok.symm.trans hok')
      rw [htotal]
      exact exactCopy_copyAt hk0 one_pos (htotal ▸ hs.size_lt)
    · rw [convert_on_device, if_neg hacc]
      exact hsame

theorem rows_honours (hs : SizedWeight s) (hout : s.w.toNat ≤ 4096) (hin : 256 ∣ s.h.toNat)
    (hrows : 4096 ∣ matrices s * s.w.toNat) : DeviceHonours emulator .I_X_W false s := by
  obtain ⟨copies, hok, -, hsame⟩ := rows_agree emulator hs hout hin hrows
  refine ⟨copies, hok, fun data held schedule hperm => ⟨⟨byteSize s, scatter held schedule⟩, ?_,
    le_refl _, ?_⟩⟩
  · simp [device_pre_wei, create_bo_eq hs.size_lt]
  intro mem reordered hmem e he
  -- transposing into a memory that holds the logical weight already leaves it as it is
  have hself : scatter mem (transpose_pimbo (PimCreateBo s) data) = mem := by
    refine scatter_self fun w hw => ?_
    rw [transpose_pimbo_eq hs] at hw
    simp only [List.mem_flatMap, List.mem_map, List.mem_range] at hw
    obtain ⟨m, hm, a, ha, l, hl, rfl⟩ := hw
    have hplace : stored .I_X_W false s m l a = (m * s.h.toNat + a) * s.w.toNat + l := by
      calc stored .I_X_W false s m l a = m * (s.h.toNat * s.w.toNat) + (a * s.w.toNat + l) := rfl
        _ = (m * s.h.toNat + a) * s.w.toNat + l := by ring
    rw [← hplace]
    exact hmem m l a hm hl ha
  have hhost := hsame data held mem reordered schedule hperm e he
  rw [reorder_on_host, hself] at hhost
  exact hhost

end Rows

/-! ### Transposed `I_X_W` weights -/

/-- With a single column both layouts are the same. -/
theorem honours_of_column {emulator : Bool} {s : PimBShape} (hw : s.w.toNat = 1)
    (h : DeviceHonours emulator .I_X_W false s) : DeviceHonours emulator .I_X_W true s := by
  have hsame : ∀ data mem, HoldsLogical .I_X_W true s data mem →
      HoldsLogical .I_X_W false s data mem := by
    intro data mem hmem m o i hm ho hi
    have ho' : o < s.w.toNat := ho
    obtain rfl : o = 0 := by omega
    have hplace : stored .I_X_W false s m 0 i = stored .I_X_W true s m 0 i := by
      simp [stored, hw]
    rw [hmem m 0 i hm ho hi, hplace]
  obtain ⟨copies, hok, hall⟩ := h
  refine ⟨copies, hok, fun data held schedule hperm => ?_⟩
  obtain ⟨buf, hbuf, hfit, hdata⟩ := hall data held schedule hperm
  exact ⟨buf, hbuf, hfit, fun mem reordered hmem => hdata mem reordered (hsame data mem hmem)⟩

/-- The launch reads the second output's first element from place 1, a transposed weight has it at
    `h`. -/
theorem column_of_honours {emulator : Bool} {s : PimBShape} (hs : SizedWeight s)
    (hout : s.w.toNat ≤ 4096)
    (hin : 256 ∣ s.h.toNat) (hrows : 4096 ∣ matrices s * s.w.toNat)
    (h : DeviceHonours emulator .I_X_W true s) : s.w = 1 := by
  by_contra hw
  have hw1 : s.w.toNat ≠ 1 := fun h1 => hw (UInt32.toNat_inj.mp h1)
  have hw0 := hs.w_pos
  have hh0 := hs.h_pos
  obtain ⟨copies, hok, hexact, -⟩ := rows_agree emulator hs hout hin hrows
  obtain ⟨_, hok', hrow⟩ := (rows_honours emulator hs hout hin hrows).agree
  obtain rfl := Except.ok.inj (hok.symm.trans hok')
  obtain ⟨_, hok'', hcol⟩ := h.agree
  obtain rfl := Except.ok.inj (hok.symm.trans hok'')
  let data : Mem := fun e => if e = 1 then 1 else 0
  obtain ⟨memU, hmemU⟩ := exists_holdsLogical .I_X_W false s data
  obtain ⟨memT, hmemT⟩ := exists_holdsLogical .I_X_W true s data
  -- the transaction that holds element `(1, 0)` of the logical weight
  obtain ⟨k, hk⟩ := hin
  have hk0 : 0 < k := by omega
  have hbyte : 32 * (16 * k) + 32 ≤ byteSize s := by
    have hmat := matrix_le_byteSize .I_X_W hs.matrices_pos
    have hrow2 : 2 * s.h.toNat ≤ s.w.toNat * s.h.toNat := Nat.mul_le_mul_right _ (by omega)
    simp only [inDim, outDim] at hmat
    omega
  obtain ⟨cp, hcp, hsrc⟩ : ∃ cp ∈ copies, cp.src = ((32 * (16 * k) : ℕ) : ℤ) :=
    List.mem_map.mp (hexact.1.mem_iff.mpr (List.mem_map.mpr ⟨16 * k, List.mem_range.mpr (by omega), rfl⟩))
  obtain ⟨t, ht, hdst⟩ := List.mem_map.mp (hexact.2.mem_iff.mp (List.mem_map.mpr ⟨cp, hcp, rfl⟩))
  have ht := List.mem_range.mp ht
  have hnd := hexact.2.nodup_iff.mpr (nodup_transactionOffsets _)
  have hdvd : ∀ cp ∈ copies, (32 : ℤ) ∣ cp.dst := by
    intro cp' hcp'
    obtain ⟨t', -, hdst'⟩ := List.mem_map.mp (hexact.2.mem_iff.mp (List.mem_map.mpr ⟨cp', hcp', rfl⟩))
    exact ⟨t', by rw [← hdst']; push_cast; ring⟩
  have hhost : ∀ mem : Mem, scatter (fun _ => 0) (copies.flatMap (copy_halves mem)) ((16 * t : ℕ) : ℤ) =
      mem (s.h.toNat : ℕ) := by
    intro mem
    have hcopy := host_element mem (fun _ => 0) hdvd hnd hcp (show 0 < 16 by norm_num)
    have hd : cp.dst / 2 + ((0 : ℕ) : ℤ) = ((16 * t : ℕ) : ℤ) := by omega
    have hsr : cp.src / 2 + ((0 : ℕ) : ℤ) = ((s.h.toNat : ℕ) : ℤ) := by omega
    rw [hd, hsr] at hcopy
    exact hcopy
  have hsame : memU (s.h.toNat : ℕ) = memT (s.h.toNat : ℕ) := by
    have hU := hrow data (fun _ => 0) memU (fun _ => 0) hmemU (16 * t) (by omega)
    have hT := hcol data (fun _ => 0) memT (fun _ => 0) hmemT (16 * t) (by omega)
    rw [← hhost memU, ← hhost memT, ← hU, ← hT]
  have hlog : logical .I_X_W s 0 1 0 = s.h.toNat := by simp [logical, inDim]
  have hwant := hmemU 0 1 0 hs.matrices_pos (show 1 < s.w.toNat by omega) hh0
  have hgot := hmemT 0 1 0 hs.matrices_pos (show 1 < s.w.toNat by omega) hh0
  have hone : data (stored .I_X_W false s 0 1 0 : ℕ) = 1 := by simp [data, stored]
  have hzero : data (stored .I_X_W true s 0 1 0 : ℕ) = 0 := by
    have hh1 : s.h.toNat ≠ 1 := by omega
    simp [data, stored, hh1]
  rw [hlog] at hwant hgot
  rw [hwant, hgot, hone, hzero] at hsame
  exact absurd hsame (by decide)

/-! ### `W_X_I` weights -/

/-- Square weights look the same to both orders. -/
theorem honours_of_square {emulator : Bool} {n c w : UInt32}
    (h : DeviceHonours emulator .I_X_W false ⟨n, c, w, w⟩) :
    DeviceHonours emulator .W_X_I true ⟨n, c, w, w⟩ := by
  have hcheck : check_chwise_gemm_bo (PimCreateBo ⟨n, c, w, w⟩) .W_X_I =
      check_chwise_gemm_bo (PimCreateBo ⟨n, c, w, w⟩) .I_X_W := rfl
  have hhost : convert_on_host emulator .W_X_I (PimCreateBo ⟨n, c, w, w⟩) =
      convert_on_host emulator .I_X_W (PimCreateBo ⟨n, c, w, w⟩) := by
    rw [convert_on_host, convert_on_host, hcheck]
    rfl
  obtain ⟨copies, hok, hall⟩ := h
  refine ⟨copies, hhost.trans hok, fun data held schedule hperm => ?_⟩
  rw [convert_on_device, hcheck] at hperm
  obtain ⟨buf, hbuf, hfit, hdata⟩ := hall data held schedule hperm
  exact ⟨buf, hbuf, hfit, fun mem reordered hmem => hdata mem reordered fun m o i hm ho hi =>
    hmem m o i hm ho hi⟩

/-- Of whole tiles the host loop makes one copy for every transaction, the first of them from the
    start of the weight to the start of the buffer. -/
theorem host_copies (emulator : Bool) (gemm_order : PimGemmOrder) {s : PimBShape} {k I : ℕ}
    (hs : SizedWeight s)
    (hout : outDim s gemm_order ≤ 4096) (hin : inDim s gemm_order = 256 * k)
    (hrows : matrices s * outDim s gemm_order = 4096 * I) :
    byteSize s = 2 ^ 21 * (k * I) ∧ ∃ stride, 32 ∣ stride ∧
      convert_on_host emulator gemm_order (PimCreateBo s) =
        .ok ((List.range (65536 * (k * I))).map (copyAt emulator k 1 stride)) := by
  have htotal : byteSize s = 2 ^ 21 * (k * I) := by
    rw [byteSize_eq s gemm_order, hrows, hin]; ring
  have hlt := hs.size_lt
  have hpos : 0 < k * I := by
    have := hs.size_pos
    omega
  have hk0 : 0 < k := Nat.pos_of_mul_pos_right hpos
  have hkI : k * 1 ≤ k * I := Nat.mul_le_mul_left k (Nat.pos_of_mul_pos_left hpos)
  have hkI' : 1 * I ≤ k * I := Nat.mul_le_mul_right I hk0
  refine ⟨htotal, ?_⟩
  rcases Nat.lt_or_ge (outDim s gemm_order) 4096 with hchwise | hge
  · have hacc : check_chwise_gemm_bo (PimCreateBo s) gemm_order = true :=
      (check_chwise_gemm_bo_iff _ _).mpr ⟨hchwise, ⟨I, hrows⟩⟩
    refine ⟨_, ?_, by rw [convert_on_host, if_pos hacc, convert_chwise_eq _ hin hrows (by omega) (by omega),
      show I * 1 * (2 * k) * 32768 = 65536 * (k * I) by ring]⟩
    unfold uint32
    omega
  · have hw : outDim s gemm_order = 4096 * 1 := by omega
    have hacc : ¬ check_chwise_gemm_bo (PimCreateBo s) gemm_order = true := by
      rw [check_chwise_gemm_bo_iff]
      rintro ⟨hlt', -⟩
      have hlt' : outDim s gemm_order < 4096 := hlt'
      omega
    have hI : matrices s * 1 = I := by
      rw [hw] at hrows
      omega
    obtain ⟨-, hok⟩ :=
      convert_aligned_ok emulator gemm_order hs.matrices_pos hin hk0 hw one_pos hs.size_lt
    rw [hI] at hok
    exact ⟨2 ^ 21 * k * 1, by omega, by rw [convert_on_host, if_neg hacc, hok]⟩

/-- When every element is reached, the second element of the buffer is that of the weight. -/
theorem host_at_one {emulator : Bool} {mem mem' reordered : Mem} {k I stride : ℕ} (hpos : 0 < k * I)
    (hlt : 2 ^ 21 * (k * I) < 2 ^ 31) (hstride : 32 ∣ stride)
    (hcover : ∀ e : ℕ, e < 2 ^ 21 * (k * I) / 2 → ∃ w ∈ ((List.range (65536 * (k * I))).map
      (copyAt emulator k 1 stride)).flatMap (copy_halves mem'), w.1 = (e : ℤ)) :
    scatter reordered (((List.range (65536 * (k * I))).map (copyAt emulator k 1 stride)).flatMap
      (copy_halves mem)) ((1 : ℕ) : ℤ) = mem ((1 : ℕ) : ℤ) := by
  have hk0 : 0 < k := Nat.pos_of_mul_pos_right hpos
  have hkI : k * 1 ≤ k * I := Nat.mul_le_mul_left k (Nat.pos_of_mul_pos_left hpos)
  have hdvd : ∀ cp ∈ (List.range (65536 * (k * I))).map (copyAt emulator k 1 stride),
      (32 : ℤ) ∣ cp.dst := by
    intro cp hcp
    obtain ⟨q, hq, rfl⟩ := List.mem_map.mp hcp
    have hq : q = 65536 * (k * (q / (65536 * k))) + q % (65536 * k) := by
      rw [← Nat.mul_assoc, Nat.div_add_mod]
    rw [hq, copyAt_dst_iteration _ _ (Nat.mod_lt _ (by omega)) (by omega)]
    obtain ⟨d, rfl⟩ := hstride
    have hoff : (32 : ℤ) ∣ int32 ((q / (65536 * k) * (32 * d) : ℕ) : ℤ) :=
      dvd_int32 (by norm_num) ⟨((q / (65536 * k) * d : ℕ) : ℤ), by push_cast; ring⟩
    exact dvd_add hoff ⟨(target (q % (65536 * k)) : ℤ), by push_cast; ring⟩
  have h32 : 32 ∣ 2 ^ 21 * (k * I) := by omega
  have hnd := nodup_of_cover h32 hdvd
    (by rw [List.length_map, List.length_range]; omega) hcover
  have hfirst : copyAt emulator k 1 stride 0 ∈ (List.range (65536 * (k * I))).map
      (copyAt emulator k 1 stride) :=
    List.mem_map.mpr ⟨0, List.mem_range.mpr (by omega), rfl⟩
  have hzero : int32 ((0 * stride : ℕ) : ℤ) = 0 := by
    rw [Nat.zero_mul, int32_natCast (by norm_num), Nat.cast_zero]
  have hdst := copyAt_dst_iteration emulator stride (m := 0) (j := 0) (show 0 < 65536 * k by omega)
    (by omega)
  have hsrc := copyAt_src_iteration emulator stride (m := 0) (j := 0) (show 0 < 65536 * k by omega)
    (by rw [source_zero]; norm_num)
  rw [Nat.mul_zero, Nat.mul_zero, hzero] at hdst hsrc
  rw [source_zero] at hsrc
  have hcopy := host_element mem reordered hdvd hnd hfirst (show 1 < 16 by norm_num)
  rw [hdst, hsrc] at hcopy
  exact hcopy

/-- The kernels put element 1 of column 0 there. -/
theorem launch_at_one {emulator : Bool} {s : PimBShape} (hs : SizedWeight s) (hout : s.h.toNat ≤ 4096)
    (hrows : 4096 ∣ matrices s * s.h.toNat) {data : Mem} {v : Half}
    (hv : (((1 : ℕ) : ℤ), v) ∈ convert_on_device emulator .W_X_I (PimCreateBo s) data) :
    v = data (s.w.toNat : ℕ) := by
  have hw0 := hs.w_pos
  have helems := hs.elems_lt
  rw [convert_on_device] at hv
  split_ifs at hv with hacc
  · obtain ⟨i, j, a, l, hi, hj, ha, hl, heq⟩ := (mem_launch hs (by norm_num) (by norm_num)).mp hv
    obtain ⟨hidx, rfl⟩ := Prod.mk.inj heq
    have hplace := elem_lt (matrix_index_lt hi hj) (place_lt (a := 0) hl (by omega)).1
    have hsize : ((i * s.c.toNat + j) * s.w.toNat + l) * s.h.toNat =
        (i * s.c.toNat + j) * (s.h.toNat * s.w.toNat) + (l * s.h.toNat + 0) := by ring
    obtain ⟨hrow, rfl⟩ := idx_chwise_eq_one ha hout (by omega) (Nat.cast_inj.mp hidx).symm
    have hl0 : l = 0 := by omega
    have hm : i * s.c.toNat + j = 0 := by
      have : (i * s.c.toNat + j) * s.w.toNat = 0 := by omega
      exact (Nat.mul_eq_zero.mp this).resolve_right (by omega)
    rw [hm, hl0, Nat.zero_mul, Nat.zero_add, Nat.one_mul, Nat.add_zero]
  · have h4096 : s.h.toNat = 4096 := by
      by_contra hne
      refine hacc ((check_chwise_gemm_bo_iff _ _).mpr ⟨?_, hrows⟩)
      change s.h.toNat < 4096
      omega
    obtain ⟨i, j, a, l, hi, hj, ha, hl, heq⟩ := (mem_launch hs one_pos (by norm_num)).mp hv
    obtain ⟨hidx, rfl⟩ := Prod.mk.inj heq
    have hplace := elem_lt (matrix_index_lt hi hj) (place_lt (a := 0) hl (by omega)).1
    have hmat := hs.matrix_lt
    rw [h4096] at hidx ha hplace hmat helems ⊢
    have hsize : (i * s.c.toNat + j) * 4096 * s.w.toNat < 2 ^ 30 := by
      rw [Nat.mul_assoc]
      exact lt_of_le_of_lt (Nat.le_add_right _ _) (hplace.trans helems)
    have hwidth : s.w.toNat ≤ 2 ^ 18 := by omega
    obtain ⟨hm, rfl, rfl⟩ := idx_aligned_eq_one ha hl hwidth hsize (Nat.cast_inj.mp hidx).symm
    rw [hm, Nat.zero_mul, Nat.zero_add, Nat.one_mul, Nat.add_zero]

/-- So a `W_X_I` weight must keep its second element at place `w`. -/
theorem square_of_honours {emulator transposed : Bool} {s : PimBShape} (hs : SizedWeight s)
    (hout : s.h.toNat ≤ 4096) (hin : 256 ∣ s.w.toNat) (hrows : 4096 ∣ matrices s * s.h.toNat)
    (h : DeviceHonours emulator .W_X_I transposed s) : transposed = true ∧ s.h = s.w := by
  obtain ⟨k, hk⟩ := hin
  obtain ⟨I, hI⟩ := hrows
  have hw0 := hs.w_pos
  obtain ⟨copies, hok, hagree⟩ := h.agree
  obtain ⟨htotal, stride, hstride, hok'⟩ := host_copies emulator .W_X_I hs hout hk hI
  obtain rfl := Except.ok.inj (hok.symm.trans hok')
  have hpos := hs.size_pos
  have hlt := hs.size_lt
  have hplace : stored .W_X_I transposed s 0 0 1 = s.w.toNat := by
    by_contra hne
    let data : Mem := fun e => if e = (stored .W_X_I transposed s 0 0 1 : ℕ) then 1 else 0
    obtain ⟨mem, hmem⟩ := exists_holdsLogical .W_X_I transposed s data
    have hsame := hagree data (fun _ => 0) mem (fun _ => 0) hmem 1 (by omega)
    have hlog : logical .W_X_I s 0 0 1 = 1 := by simp [logical]
    have hone : mem ((1 : ℕ) : ℤ) = 1 := by
      rw [← hlog, hmem 0 0 1 hs.matrices_pos hs.h_pos (show 1 < s.w.toNat by omega)]
      exact if_pos rfl
    rw [host_at_one (by omega) (htotal ▸ hlt) hstride
      (fun e he => cover_of_agree hagree (by rw [htotal]; exact he)), hone] at hsame
    have hdata : data (s.w.toNat : ℕ) = 0 := if_neg fun heq => hne (Nat.cast_inj.mp heq).symm
    rcases scatter_cases (fun _ => (0 : Half)) (convert_on_device emulator .W_X_I (PimCreateBo s) data)
      ((1 : ℕ) : ℤ) with hkeep | hmem'
    · exact absurd (hkeep.symm.trans hsame) (by decide)
    · have hval := launch_at_one hs hout ⟨I, hI⟩ hmem'
      rw [hsame, hdata] at hval
      exact absurd hval (by decide)
  cases transposed
  · have hone : stored .W_X_I false s 0 0 1 = 1 := by simp [stored]
    omega
  · have hh : stored .W_X_I true s 0 0 1 = s.h.toNat := by simp [stored]
    exact ⟨rfl, UInt32.toNat_inj.mp (hh.symm.trans hplace)⟩

/-! ### Weights that are not whole tiles -/

/-- A tile that is not full has a row beyond the outputs that goes to an early place. -/
theorem far_row (emulator : Bool) {out k : ℕ} (h0 : 0 < out) (hlt : out < 4096) (hk : 0 < k)
    (hsize : out * (256 * k) < 2 ^ 30) :
    ∃ R, out ≤ R ∧ R < 4096 ∧ 16 * target (copyOf emulator k R 0) < out * (256 * k) ∧
      R * (256 * k) < 2 ^ 30 := by
  have hfirst : ∀ R, R < 4096 → copyOf emulator k R 0 = copyOf emulator 1 R 0 := by
    intro R hR
    simp only [copyOf, Nat.div_eq_of_lt hR, Nat.zero_mul]
  have hmul : out * 256 ≤ out * (256 * k) := Nat.mul_le_mul_left _ (Nat.le_mul_of_pos_right _ hk)
  rcases Nat.lt_or_ge 1024 k with hbig | hsmall
  · -- the row itself, before its offset wraps
    have hwide : out * 262400 ≤ out * (256 * k) :=
      Nat.mul_le_mul_left out (show 262400 ≤ 256 * k by omega)
    refine ⟨out, le_refl _, hlt, ?_, hsize⟩
    rw [hfirst out hlt]
    rcases Nat.lt_or_ge out 4 with h3 | h4
    · have ht : ∀ R, R < 4 → target (copyOf emulator 1 R 0) ≤ 8197 * R := by cases emulator <;> decide
      have := ht out h3
      omega
    · have hcopy := (copyOf_first emulator (k := 1) (R := out) (a := 0) (by norm_num)).1
      rw [Nat.mod_eq_of_lt hlt] at hcopy
      have := target_lt (N := 1) hcopy
      omega
  · have hnowrap : ∀ R, R < 4096 → R * (256 * k) < 2 ^ 30 := by
      intro R hR
      calc R * (256 * k) ≤ 4095 * (256 * 1024) := by gcongr; omega
        _ < 2 ^ 30 := by norm_num
    rcases Nat.lt_or_ge out 65 with h1 | h1
    · have ht : target (copyOf emulator 1 64 0) = 2 := by cases emulator <;> decide
      exact ⟨64, by omega, by omega, by rw [hfirst 64 (by omega), ht]; omega, hnowrap _ (by omega)⟩
    rcases Nat.lt_or_ge out 4033 with h2 | h2
    · have ht : target (copyOf emulator 1 4032 0) = 250 := by cases emulator <;> decide
      exact ⟨4032, by omega, by omega, by rw [hfirst 4032 (by omega), ht]; omega, hnowrap _ (by omega)⟩
    · have ht : target (copyOf emulator 1 4095 0) ≤ 61178 := by cases emulator <;> decide
      exact ⟨4095, by omega, by omega, by rw [hfirst 4095 (by omega)]; omega, hnowrap _ (by omega)⟩

/-- Both layouts keep a matrix in its own part of the weight. -/
theorem same_matrix (transposed : Bool) {gemm_order : PimGemmOrder} {s : PimBShape} {m o i : ℕ}
    (ho : o < outDim s gemm_order) (hi : i < inDim s gemm_order) :
    logical gemm_order s m o i < s.h.toNat * s.w.toNat ↔
      stored gemm_order transposed s m o i < s.h.toNat * s.w.toNat := by
  obtain ⟨p, hp, hlog⟩ : ∃ p, p < s.h.toNat * s.w.toNat ∧
      logical gemm_order s m o i = m * (s.h.toNat * s.w.toNat) + p := by
    cases gemm_order
    · exact ⟨_, (place_lt hi ho).2, by simp only [logical, outDim, inDim]; ring⟩
    · exact ⟨_, (place_lt ho hi).1, by simp only [logical, outDim, inDim]; ring⟩
  obtain ⟨p', hp', hsto⟩ : ∃ p', p' < s.h.toNat * s.w.toNat ∧
      stored gemm_order transposed s m o i = m * (s.h.toNat * s.w.toNat) + p' := by
    refine ⟨_, ?_, rfl⟩
    cases gemm_order <;> cases transposed
    · exact (place_lt hi ho).2
    · exact (place_lt hi ho).1
    · exact (place_lt ho hi).2
    · exact (place_lt ho hi).1
  rw [hlog, hsto]
  rcases Nat.eq_zero_or_pos m with rfl | hm
  · omega
  · have hle : s.h.toNat * s.w.toNat ≤ m * (s.h.toNat * s.w.toNat) := Nat.le_mul_of_pos_left _ hm
    omega

/-- Only the threads of the first matrix write as early as that. -/
theorem launch_aligned_early {emulator : Bool} {s : PimBShape} (hs : SizedWeight s) {data : Mem}
    {e : ℕ} {v : Half}
    (he : e < s.h.toNat * s.w.toNat) (hv : ((e : ℤ), v) ∈ launch_aligned emulator (PimCreateBo s) data) :
    ∃ p, p < s.h.toNat * s.w.toNat ∧ v = data (p : ℕ) := by
  obtain ⟨i, j, a, l, hi, hj, ha, hl, heq⟩ := (mem_launch hs one_pos (by norm_num)).mp hv
  obtain ⟨hidx, rfl⟩ := Prod.mk.inj heq
  have helems := hs.elems_lt
  have hle := le_idx_aligned emulator s.n.toNat s.c.toNat s.h.toNat s.w.toNat i j a l
  have hm_lt := elem_lt (matrix_index_lt hi hj) (Nat.mul_pos hs.h_pos hs.w_pos)
  rw [← Nat.cast_inj.mp hidx, Nat.mul_assoc, uint32_of_lt (by omega)] at hle
  have hm : i * s.c.toNat + j = 0 := by
    by_contra hne
    have hone := Nat.mul_le_mul_right (s.h.toNat * s.w.toNat) (Nat.one_le_iff_ne_zero.mpr hne)
    omega
  exact ⟨_, (place_lt hl ha).2, by rw [hm, Nat.zero_mul, Nat.zero_add]⟩

/-- Within the first matrix a place determines the matrix, the transaction and the element. -/
theorem early_place {m d t t' e : ℕ} (ht : 16 * t < d) (he : e < 16)
    (h : m * d + 16 * t' + e = 16 * t) :
    m = 0 ∧ e = 0 ∧ t' = t := by
  have hm : m = 0 := by
    by_contra hne
    have hle := Nat.mul_le_mul_right d (Nat.one_le_iff_ne_zero.mpr hne)
    omega
  subst hm
  omega

/-- An early place is written by one copy of the first iteration. -/
theorem host_early {emulator : Bool} {mem reordered : Mem} {k N d j : ℕ} (hj : j < 65536 * k)
    (hN : 0 < N)
    (hsize : N * (d * 2) < 2 ^ 31) (hrow : 2 * k ≤ 2 ^ 32) (hsrc : 32 * source emulator k j < 2 ^ 31)
    (hearly : 16 * target j < d) :
    scatter reordered (((List.range (N * 1 * (2 * k) * 32768)).map (copyAt emulator k 1 (d * 2))).flatMap
      (copy_halves mem)) ((16 * target j : ℕ) : ℤ) = mem ((16 * source emulator k j : ℕ) : ℤ) := by
  have hzero : int32 ((0 * (d * 2) : ℕ) : ℤ) = 0 := by
    rw [Nat.zero_mul, int32_natCast (by norm_num), Nat.cast_zero]
  have hlen : N * 1 * (2 * k) * 32768 = N * (65536 * k) := by ring
  have hdst := copyAt_dst_iteration emulator (d * 2) (m := 0) hj hrow
  have hread := copyAt_src_iteration emulator (d * 2) (m := 0) hj hsrc
  rw [Nat.mul_zero, Nat.mul_zero, Nat.zero_add, hzero, zero_add] at hdst hread
  refine scatter_eq ⟨_, List.mem_flatMap.mpr ⟨copyAt emulator k 1 (d * 2) j, List.mem_map.mpr ⟨j, ?_, rfl⟩,
    List.mem_map.mpr ⟨0, List.mem_range.mpr (by norm_num), rfl⟩⟩, ?_⟩ ?_
  · rw [hlen]
    exact List.mem_range.mpr (lt_of_lt_of_le hj (Nat.le_mul_of_pos_left _ hN))
  · change _ / 2 + ((0 : ℕ) : ℤ) = _
    rw [hdst]
    omega
  · intro w hw heq
    obtain ⟨cp, hcp, hmem⟩ := List.mem_flatMap.mp hw
    obtain ⟨e, he, rfl⟩ := List.mem_map.mp hmem
    obtain ⟨q, hq, rfl⟩ := List.mem_map.mp hcp
    have he := List.mem_range.mp he
    have hm : q / (65536 * k) < N := by
      rw [hlen, Nat.mul_comm] at hq
      exact Nat.div_lt_of_lt_mul (List.mem_range.mp hq)
    have hsplit : q = 65536 * (k * (q / (65536 * k))) + q % (65536 * k) := by
      rw [← Nat.mul_assoc, Nat.div_add_mod]
    have hj' : q % (65536 * k) < 65536 * k := Nat.mod_lt _ (by omega)
    generalize q / (65536 * k) = m at hm hsplit
    generalize q % (65536 * k) = j' at hj' hsplit
    have hoff : m * (d * 2) < 2 ^ 31 := lt_of_le_of_lt (Nat.mul_le_mul_right _ hm.le) hsize
    have hdst' := copyAt_dst_iteration emulator (d * 2) (m := m) hj' hrow
    rw [← hsplit, int32_natCast hoff] at hdst'
    have heq : (copyAt emulator k 1 (d * 2) q).dst / 2 + (e : ℤ) = ((16 * target j : ℕ) : ℤ) := heq
    have hmd : m * (d * 2) = 2 * (m * d) := by ring
    rw [hdst', hmd] at heq
    have heq : m * d + 16 * target j' + e = 16 * target j := by omega
    obtain ⟨rfl, rfl, htarget⟩ := early_place hearly he heq
    obtain rfl : j' = j := target_inj htarget
    rw [Nat.mul_zero, Nat.mul_zero, Nat.zero_add] at hsplit
    subst hsplit
    change mem ((copyAt emulator k 1 (d * 2) q).src / 2 + ((0 : ℕ) : ℤ)) = _
    rw [hread]
    congr 1
    omega

/-- The host loop reads that row from beyond the first matrix, where the launch does not read it
    from. -/
theorem whole_tiles_of_honours {emulator : Bool} {gemm_order : PimGemmOrder} {transposed : Bool}
    {s : PimBShape}
    (hs : SizedWeight s) (hout : outDim s gemm_order ≤ 4096) (hin : 256 ∣ inDim s gemm_order)
    (h : DeviceHonours emulator gemm_order transposed s) : 4096 ∣ matrices s * outDim s gemm_order := by
  by_contra hrows
  obtain ⟨k, hk⟩ := hin
  have hdims : outDim s gemm_order * inDim s gemm_order = s.h.toNat * s.w.toNat := by
    cases gemm_order <;> simp only [outDim, inDim]
    ring
  have hmat_pos : 0 < outDim s gemm_order * inDim s gemm_order := hdims ▸ Nat.mul_pos hs.h_pos hs.w_pos
  have hout0 : 0 < outDim s gemm_order := Nat.pos_of_mul_pos_right hmat_pos
  have hin0 : 0 < inDim s gemm_order := Nat.pos_of_mul_pos_left hmat_pos
  have hout' : outDim s gemm_order < 4096 := by
    refine lt_of_le_of_ne hout fun heq => hrows ?_
    rw [heq]
    exact Dvd.intro_left _ rfl
  have hacc : ¬ check_chwise_gemm_bo (PimCreateBo s) gemm_order = true := by
    rw [check_chwise_gemm_bo_iff]
    exact fun hacc => hrows hacc.2
  have hmat := hs.matrix_lt
  have hin_lt : inDim s gemm_order < 2 ^ 30 := by
    cases gemm_order
    · exact hs.w_lt
    · exact hs.h_lt
  obtain ⟨copies, hok, hagree⟩ := h.agree
  rw [convert_on_host, if_neg hacc,
    convert_aligned_eq (Y := 1) hk (by omega) (hs.matrices_lt.trans (by norm_num))
    (by omega) (by omega), uint32_of_lt (by omega)] at hok
  obtain rfl := Except.ok.inj hok
  obtain ⟨R, hR, hR4096, hplace, hnowrap⟩ := far_row emulator (k := k) hout0 hout' (by omega)
    (by rw [← hk, hdims]; exact hmat)
  obtain ⟨hj, -, -, -⟩ := copyOf_first emulator (k := k) (R := R) (a := 0) (by omega)
  rw [Nat.mod_eq_of_lt hR4096] at hj
  rw [← hk, hdims] at hplace
  have hsource := source_copyOf emulator (k := k) (R := R) (a := 0) (by omega)
  -- ones in the first matrix, zeros beyond it
  let data : Mem := fun e => if e < (s.h.toNat * s.w.toNat : ℕ) then 1 else 0
  have hmem : HoldsLogical gemm_order transposed s data data := by
    intro m o i _ ho hi
    simp only [data, Nat.cast_lt, same_matrix transposed ho hi]
  have hbyte : s.h.toNat * s.w.toNat ≤ byteSize s / 2 := by
    rw [byteSize, Nat.mul_div_cancel _ two_pos, Nat.mul_assoc]
    exact Nat.le_mul_of_pos_left _ hs.matrices_pos
  have hsame :=
    hagree data (fun _ => 1) data (fun _ => 1) hmem (16 * target (copyOf emulator k R 0)) (by omega)
  have hsize : matrices s * (s.h.toNat * s.w.toNat * 2) < 2 ^ 31 := by
    have := hs.elems_lt
    calc matrices s * (s.h.toNat * s.w.toNat * 2) = 2 * (matrices s * s.h.toNat * s.w.toNat) := by ring
      _ < 2 ^ 31 := by omega
  rw [host_early hj hs.matrices_pos hsize (by omega) (by omega) hplace, convert_on_device,
    if_neg hacc] at hsame
  have hhost : data ((16 * source emulator k (copyOf emulator k R 0) : ℕ) : ℤ) = 0 := by
    refine if_neg fun hlt => ?_
    have hlt := Nat.cast_lt.mp hlt
    have hle : outDim s gemm_order * inDim s gemm_order ≤ R * (256 * k) := by
      rw [← hk]
      exact Nat.mul_le_mul_right _ hR
    omega
  rw [hhost] at hsame
  rcases scatter_cases (fun _ => (1 : Half)) (launch_aligned emulator (PimCreateBo s) data)
    ((16 * target (copyOf emulator k R 0) : ℕ) : ℤ) with hkeep | hw
  · exact absurd (hkeep.symm.trans hsame) (by decide)
  · obtain ⟨p, hp, hval⟩ := launch_aligned_early hs hplace hw
    have hone : data (p : ℕ) = 1 := if_pos (Nat.cast_lt.mpr hp)
    rw [hsame, hone] at hval
    exact absurd hval (by decide)

/-! ### The exact condition -/

/-- A weight without elements leaves nothing to compare. -/
theorem honours_of_empty {emulator : Bool} {gemm_order : PimGemmOrder} {transposed : Bool}
    {s : PimBShape}
    (h0 : byteSize s = 0) : DeviceHonours emulator gemm_order transposed s := by
  have hok : ∃ copies, convert_on_host emulator gemm_order (PimCreateBo s) = .ok copies := by
    rw [convert_on_host]
    split_ifs
    · exact ⟨_, rfl⟩
    · simp [convert_data_layout_for_aligned_gemm_weight, PimCreateBo]
  obtain ⟨copies, hok⟩ := hok
  refine ⟨copies, hok, fun data held schedule _ => ⟨⟨byteSize s, scatter held schedule⟩, ?_, le_refl _, ?_⟩⟩
  · simp [device_pre_wei, create_bo_eq (s := s) (by omega)]
  · intro mem reordered _ e he
    omega

/-- Within the tile limits the device path honours order and flag exactly for whole tiles of a
    weight that is stored as an untransposed `I_X_W` weight is. -/
theorem device_honours_iff (emulator : Bool) (gemm_order : PimGemmOrder) (transposed : Bool)
    (s : PimBShape)
    (hout : outDim s gemm_order ≤ 4096) (hin : 256 ∣ inDim s gemm_order) :
    DeviceHonours emulator gemm_order transposed s ↔ byteSize s = 0 ∨
      byteSize s < 2 ^ 31 ∧ 4096 ∣ matrices s * outDim s gemm_order ∧
        (gemm_order = .I_X_W ∧ (transposed = false ∨ s.w = 1) ∨
          gemm_order = .W_X_I ∧ transposed = true ∧ s.h = s.w) := by
  rcases Nat.eq_zero_or_pos (byteSize s) with h0 | hpos
  · exact ⟨fun _ => Or.inl h0, fun _ => honours_of_empty h0⟩
  constructor
  · intro h
    have hs : SizedWeight s := ⟨hpos, h.size_lt⟩
    have hrows := whole_tiles_of_honours hs hout hin h
    refine Or.inr ⟨h.size_lt, hrows, ?_⟩
    cases gemm_order
    · exact Or.inr ⟨rfl, square_of_honours hs hout hin hrows h⟩
    · cases transposed
      · exact Or.inl ⟨rfl, Or.inl rfl⟩
      · exact Or.inl ⟨rfl, Or.inr (column_of_honours hs hout hin hrows h)⟩
  · rintro (h0 | ⟨hlt, hrows, ⟨rfl, hcol⟩ | ⟨rfl, rfl, hsq⟩⟩)
    · omega
    · have hstraight := rows_honours emulator ⟨hpos, hlt⟩ hout hin hrows
      cases transposed
      · exact hstraight
      · rcases hcol with hcol | hcol
        · cases hcol
        · exact honours_of_column (by rw [hcol]; rfl) hstraight
    · obtain ⟨n, c, h, w⟩ := s
      obtain rfl : h = w := hsq
      exact honours_of_square (rows_honours emulator ⟨hpos, hlt⟩ hout hin hrows)

theorem device_honours_square :
    DeviceHonours false .W_X_I true ⟨16, 1, 256, 256⟩ ↔ byteSize ⟨16, 1, 256, 256⟩ = 0 ∨
      byteSize ⟨16, 1, 256, 256⟩ < 2 ^ 31 ∧
        4096 ∣ matrices ⟨16, 1, 256, 256⟩ * outDim ⟨16, 1, 256, 256⟩ .W_X_I ∧
        (PimGemmOrder.W_X_I = .I_X_W ∧ (true = false ∨ (256 : UInt32) = 1) ∨
          PimGemmOrder.W_X_I = .W_X_I ∧ true = true ∧ (256 : UInt32) = 256) :=
  device_honours_iff false .W_X_I true ⟨16, 1, 256, 256⟩ (by decide) (by decide)

/-- A plain `W_X_I` weight of 4096 outputs and 256 inputs comes out as if it were transposed. -/
theorem device_ignores_order : ¬ DeviceHonours false .W_X_I false ⟨1, 1, 4096, 256⟩ := fun h =>
  absurd (square_of_honours ⟨by decide, by decide⟩ (by decide) (by decide) (by decide) h).1 (by decide)

end PimLibrary.Runtime
