import Fusa.Steering.MaskBits

/-! `dr_rule_verify`, and the mask of a matcher: `dr_matcher_copy_param` and its verdict. -/
namespace Fusa.Steering
open List Option Nat

/-- A section of `struct dr_match_param` as one number: its fields from the low bit on. -/
def hostNum : ℕ → Layout → List ℕ → ℕ
  | off, f :: fs, v :: vs => v <<< off + hostNum (off + f.width) fs vs
  | _, _, _ => 0

/-- The bytes of `struct dr_match_param` on a little-endian host. -/
def Param.bytes (p : Param) : List UInt8 :=
  Criterion.all.flatMap fun c =>
    (List.range sectionSz).map fun k => UInt8.ofNat (hostNum 0 c.layout (p c) >>> (8 * k))

/-- `dr_rule_cmp_value_to_mask`; `none` if it leaves one of the two structures. -/
def drRuleCmpValueToMask (mask value : List UInt8) (sIdx eIdx : ℕ) : Option Bool :=
  (List.range' sIdx (eIdx - sIdx)).foldlM (fun ok i => do
    if ok then
      let v ← value[i]?
      let m ← mask[i]?
      some (v &&& ~~~m == 0)
    else some false) true

variable (criteria : UInt8)

/-- The comparisons of `dr_rule_verify`, up to the first one that fails. -/
def cmpSections (mask param : Param) (valueSize : ℕ) : Option Bool :=
  Criterion.all.foldlM (fun ok c =>
    if ok && enabled criteria c then
      drRuleCmpValueToMask mask.bytes param.bytes c.loc (min (c.loc + sectionSz) valueSize)
    else some ok) true

/-- The result and `param`; `none` if an access leaves its buffer of `match_sz` bytes. -/
def drRuleVerify (mask : Param) (value : List UInt8) (param : Param) :
    Option (Bool × Param) :=
  if value.length = 0 then some (true, param)
  else if paramSz < value.length ∨ value.length % 4 ≠ 0 then some (false, param)
  else do
    let st ← drSteCopyParam criteria param value value.length false
    let ok ← cmpSections criteria mask st.setParam value.length
    some (ok, st.setParam)

/-- The call stays in its buffers and fills `param` as from the value with zero bytes behind it. -/
def ReadsZeroExtended (mask : Param) (value : List UInt8) : Prop :=
  ∃ ok st, drSteCopyParam criteria .zero (value ++ List.replicate (paramSz - value.length) 0)
      paramSz false = some st ∧
    drRuleVerify criteria mask value .zero = some (ok, st.setParam)

@[simp] theorem Param.length_bytes (p : Param) : p.bytes.length = paramSz := by
  simp [bytes, Criterion.all, sectionSz, paramSz]

theorem foldlM_isSome {α β : Type} {f : β → α → Option β} {l : List α}
    (h : ∀ x ∈ l, ∀ b, ∃ b', f b x = some b') (b : β) : ∃ b', l.foldlM f b = some b' := by
  induction l generalizing b with
  | nil => exact ⟨b, rfl⟩
  | cons x l ih =>
    obtain ⟨b₁, hb₁⟩ := h x mem_cons_self b
    rw [foldlM_cons, hb₁]
    exact ih (fun y hy => h y (mem_cons_of_mem x hy)) b₁

theorem drRuleCmpValueToMask_isSome {mask value : List UInt8} (sIdx : ℕ) {eIdx : ℕ}
    (hm : eIdx ≤ mask.length) (hv : eIdx ≤ value.length) :
    ∃ ok, drRuleCmpValueToMask mask value sIdx eIdx = some ok := by
  apply foldlM_isSome
  intro i hi ok
  rw [mem_range'_1] at hi
  cases ok with
  | false => exact ⟨false, rfl⟩
  | true =>
    have hvi : i < value.length := by omega
    have hmi : i < mask.length := by omega
    rw [if_pos rfl, List.getElem?_eq_getElem hvi, List.getElem?_eq_getElem hmi]
    exact ⟨_, rfl⟩

theorem cmpSections_isSome (mask param : Param) (n : ℕ) :
    ∃ ok, cmpSections criteria mask param n = some ok := by
  apply foldlM_isSome
  intro c _ ok
  split
  · have hend : min (c.loc + sectionSz) n ≤ paramSz :=
      le_trans (min_le_left _ _) c.loc_add_le
    apply drRuleCmpValueToMask_isSome <;> rwa [Param.length_bytes]
  · exact ⟨ok, rfl⟩

theorem drSteCopyParam_extended {value : List UInt8} (hle : value.length ≤ paramSz)
    (criteria : UInt8) (setParam : Param) : ∃ st, drSteCopyParam criteria setParam
        (value ++ List.replicate (paramSz - value.length) 0) paramSz false = some st ∧
      st.setParam = fill criteria setParam value := by
  have hlen := length_extended hle
  have hs : ∀ c : Criterion, enabled criteria c = true →
      c.loc ≤ (value ++ List.replicate (paramSz - value.length) (0 : UInt8)).length := by
    intro c _
    have := c.loc_add_le
    rw [hlen]
    omega
  obtain ⟨st, hrun, hset⟩ := drSteCopyParam_fill setParam hs
  rw [hlen] at hrun
  rw [fill_append_zeros] at hset
  exact ⟨st, hrun, hset⟩

theorem fill_nil : fill criteria .zero [] = .zero := by
  have hzero : ∀ (l : Layout) (off : ℕ), readFields [] off l = l.map fun _ => 0 := by
    intro l
    induction l with
    | nil => exact fun _ => rfl
    | cons f fs ih =>
      intro off
      have hget : devxGet [] off f.width = 0 := by
        simp [devxGet, be32]
      rw [map_cons, ← ih (off + f.width), ← hget]
      rfl
  funext c
  simp only [fill, drop_nil, hzero, Param.zero, ite_self]

/-- A short value is read as if zeros followed exactly when enabled sections start within it. -/
theorem readsZeroExtended_iff (mask : Param) {value : List UInt8}
    (h4 : value.length % 4 = 0) (hle : value.length ≤ paramSz) :
    ReadsZeroExtended criteria mask value ↔
      value = [] ∨ ∀ c, enabled criteria c = true → c.loc ≤ value.length := by
  obtain ⟨ext, hext, hfill⟩ := drSteCopyParam_extended hle criteria .zero
  have hchecked : ¬ (paramSz < value.length ∨ value.length % 4 ≠ 0) := by omega
  constructor
  · rintro ⟨ok, st, -, hrun⟩
    rcases Nat.eq_zero_or_pos value.length with hnil | hpos
    · exact Or.inl (eq_nil_of_length_eq_zero hnil)
    · right
      intro c he
      by_contra hl
      have hfault : drSteCopyParam criteria .zero value value.length false = none :=
        foldlM_copySection_fault c.mem_all he (Nat.lt_of_not_le hl)
          (le_of_eq length_replicate)
      rw [drRuleVerify, if_neg (ne_of_gt hpos), if_neg hchecked, hfault] at hrun
      exact absurd hrun (some_ne_none _).symm
  · intro h
    rcases Nat.eq_zero_or_pos value.length with hnil | hpos
    · have hv := eq_nil_of_length_eq_zero hnil
      subst hv
      refine ⟨true, ext, hext, ?_⟩
      rw [hfill, fill_nil]
      rfl
    · have hs : ∀ c, enabled criteria c = true → c.loc ≤ value.length :=
        h.resolve_left (ne_nil_of_length_pos hpos)
      obtain ⟨st, hrun, hset⟩ := drSteCopyParam_fill .zero hs
      obtain ⟨ok, hok⟩ := cmpSections_isSome criteria mask st.setParam value.length
      refine ⟨ok, ext, hext, ?_⟩
      rw [drRuleVerify, if_neg (ne_of_gt hpos), if_neg hchecked, hrun, hfill, ← hset]
      simp only [bind_eq_bind, bind_some, hok]

theorem readsZeroExtended_outer : ReadsZeroExtended 1 .zero (List.replicate 24 0xa5) :=
  (readsZeroExtended_iff 1 .zero (by decide) (by decide)).mpr
    (Or.inr fun c => by cases c <;> decide)

/-- 32 bytes for outer and misc sections: `memcpy` gets the length `32 - 64` of a `size_t`. -/
theorem not_readsZeroExtended_misc : drRuleVerify 3 .zero (List.replicate 32 0) .zero = none ∧
      ¬ ReadsZeroExtended 3 .zero (List.replicate 32 0) := by
  have hfault : drRuleVerify 3 .zero (List.replicate 32 0) .zero = none := by
    decide +kernel
  refine ⟨hfault, ?_⟩
  rintro ⟨ok, st, -, hrun⟩
  rw [hfault] at hrun
  exact absurd hrun (some_ne_none _).symm

/-- The error codes; `ENOTSUP` is `EOPNOTSUPP` on Linux. -/
inductive Errno
  | einval | eopnotsupp | other (code : ℕ)
deriving DecidableEq, Repr

def drMatcherMaskIsAllZero (mask : List UInt8) (size : ℕ) : Bool :=
  mask.headD 0 == 0 && mask.take (size - 1) == (mask.drop 1).take (size - 1)

def drMatcherIsMaskConsumed (mask : List UInt8) (criteria : UInt8) : Bool :=
  Criterion.all.all fun c =>
    !(enabled criteria c && !drMatcherMaskIsAllZero (mask.drop c.loc) sectionSz)

/-- What `dr_matcher_copy_param` leaves: its result, `errno` and `matcher->mask`. -/
structure CopyResult where
  ret : Option Errno
  errno : Option Errno
  mask : Param

def drMatcherCopyParam (mask : Option (List UInt8)) : Option CopyResult :=
  if 128 ≤ criteria.toNat then some ⟨some .einval, some .einval, .zero⟩
  else match mask with
    | none => some ⟨none, none, .zero⟩
    | some buf =>
      if paramSz < buf.length then some ⟨some .einval, some .einval, .zero⟩
      else do
        let st ← drSteCopyParam criteria .zero
          (buf ++ List.replicate (paramSz - buf.length) 0) paramSz true
        -- the verdict goes to `errno` and to the local `ret`, and then the function returns 0
        let errno := if drMatcherIsMaskConsumed st.maskBuf criteria then none
          else some Errno.eopnotsupp
        some ⟨none, errno, st.setParam⟩

def Param.field (p : Param) (c : Criterion) (name : String) : ℕ :=
  (p c).getD (c.layout.findIdx fun f => f.name == name) 0

/-- `dr_ste_build_pre_check_spec` without a value. -/
def drSteBuildPreCheckSpec (m : Param) (c : Criterion) : Option Errno :=
  let v := m.field c "ip_version"
  if v ≠ 0 ∧ v ≠ 4 ∧ v ≠ 6 then some .eopnotsupp else none

/-- `dr_ste_build_pre_check` without a value. -/
def drSteBuildPreCheck (m : Param) : Option Errno :=
  (if enabled criteria .outer then drSteBuildPreCheckSpec m .outer else none) <|>
    (if enabled criteria .inner then drSteBuildPreCheckSpec m .inner else none) <|>
    (if enabled criteria .misc ∧ m.field .misc "source_port" ≠ 0 ∧
        m.field .misc "source_port" ≠ 0xffff then some .eopnotsupp else none)

/-- `mlx5dv_dr_matcher_create` on a table that is not the root. `later` is what the domain and the
device do after the checks of the mask: definers or builders, and the hash tables. -/
def mlx5dvDrMatcherCreate (later : Param → Option Errno) (criteria : UInt8)
    (mask : Option (List UInt8)) : Option (Except Errno Param) := do
  let r ← drMatcherCopyParam criteria mask
  match r.ret <|> drSteBuildPreCheck criteria r.mask <|> later r.mask with
  | some e => some (.error e)
  | none => some (.ok r.mask)

/-- Every set bit of an enabled section is in its field of `matcher->mask`, and one that the copy
left unconsumed makes the creation fail with `EOPNOTSUPP`. -/
structure NoBitIgnored (later : Param → Option Errno) (criteria : UInt8) (mask : List UInt8) :
    Prop where
  copied : ∀ param, mlx5dvDrMatcherCreate later criteria (some mask) = some (.ok param) →
    ∀ c, enabled criteria c = true → ∀ b < 8 * sectionSz, bitAt mask (8 * c.loc + b) = true →
      fieldBit 0 c.layout (param c) b = true
  refused : ∀ st, drSteCopyParam criteria .zero
      (mask ++ List.replicate (paramSz - mask.length) 0) paramSz true = some st →
    (∃ c b, enabled criteria c = true ∧ b < 8 * sectionSz ∧
      bitAt st.maskBuf (8 * c.loc + b) = true) →
    mlx5dvDrMatcherCreate later criteria (some mask) = some (.error .eopnotsupp)

/-- No set bit of an enabled section lies in a field that is read with `DEVX_GET`. -/
def OnlyCleared (mask : List UInt8) : Prop :=
  ∀ c, enabled criteria c = true → ∀ b < 8 * sectionSz, bitAt mask (8 * c.loc + b) = true →
    c.layout.clears 0 b = true

section Create

variable {later : Param → Option Errno} {criteria : UInt8} {mask : List UInt8}

theorem bitAt_append_zeros (n b : ℕ) : bitAt (mask ++ List.replicate n 0) b = bitAt mask b := by
  rw [bitAt, bitAt, be32_congr (getD_append_zeros mask n)]

theorem create_of_lt (hle : mask.length ≤ paramSz) (hc : criteria.toNat < 128) :
    mlx5dvDrMatcherCreate later criteria (some mask) =
      match drSteBuildPreCheck criteria (fill criteria .zero mask) <|>
        later (fill criteria .zero mask) with
      | some e => some (.error e)
      | none => some (.ok (fill criteria .zero mask)) := by
  obtain ⟨st, hrun, -, -, hset⟩ := drSteCopyParam_clear criteria .zero (length_extended hle)
  rw [fill_append_zeros] at hset
  simp only [mlx5dvDrMatcherCreate, drMatcherCopyParam, Nat.not_le_of_lt hc, if_false,
    not_lt_of_ge hle, hrun, hset, bind_eq_bind, bind_some]
  rfl

theorem create_of_ge (hc : 128 ≤ criteria.toNat) :
    mlx5dvDrMatcherCreate later criteria (some mask) = some (.error .einval) := by
  simp only [mlx5dvDrMatcherCreate, drMatcherCopyParam, hc, if_true, bind_eq_bind,
    bind_some]
  rfl

theorem fieldBit_fill {c : Criterion} {b : ℕ} (hle : mask.length ≤ paramSz)
    (he : enabled criteria c = true) (hb : b < 8 * sectionSz) :
    fieldBit 0 c.layout (fill criteria .zero mask c) b = bitAt mask (8 * c.loc + b) := by
  have hmax := c.loc_add_le
  have hlen : sectionSz ≤
      ((mask ++ List.replicate (paramSz - mask.length) (0 : UInt8)).drop c.loc).length := by
    rw [length_drop, length_extended hle]
    omega
  rw [← fill_append_zeros criteria .zero mask (paramSz - mask.length), fill, if_pos he,
    readFields, fieldBit_copyFields false c.fits hlen (zero_le b) hb, bitAt_drop,
    bitAt_append_zeros]

theorem bitAt_left {st : CopyState} {c : Criterion} {b : ℕ} (hle : mask.length ≤ paramSz)
    (hrun : drSteCopyParam criteria .zero (mask ++ List.replicate (paramSz - mask.length) 0)
      paramSz true = some st) (he : enabled criteria c = true) (hb : b < 8 * sectionSz) :
    bitAt st.maskBuf (8 * c.loc + b) = true ↔
      bitAt mask (8 * c.loc + b) = true ∧ c.layout.clears 0 b = false := by
  obtain ⟨st', hrun', -, hbits, -⟩ := drSteCopyParam_clear criteria .zero (length_extended hle)
  have hst : st' = st := some.inj (hrun'.symm.trans hrun)
  subst hst
  rw [hbits c b hb, bitAt_append_zeros, he, Bool.true_and, Bool.and_eq_true, Bool.not_eq_true']

/-- A mask is treated right when its bits lie in cleared fields, or `dr_ste_build_pre_check` refuses
it whatever the device can do. -/
theorem noBitIgnored_of_onlyCleared (later : Param → Option Errno) (hle : mask.length ≤ paramSz)
    (h : OnlyCleared criteria mask ∨ criteria.toNat < 128 ∧
      drSteBuildPreCheck criteria (fill criteria .zero mask) = some .eopnotsupp) :
    NoBitIgnored later criteria mask := by
  constructor
  · intro param hok c he b hb hm
    rcases lt_or_ge criteria.toNat 128 with hc | hc
    · rw [create_of_lt hle hc] at hok
      split at hok
      · simp at hok
      · simp only [some.injEq, Except.ok.injEq] at hok
        rwa [← hok, fieldBit_fill hle he hb]
    · rw [create_of_ge hc] at hok
      simp at hok
  · rintro st hrun ⟨c, b, he, hb, hset⟩
    obtain ⟨hm, hkept⟩ := (bitAt_left hle hrun he hb).mp hset
    have hstray : ¬ OnlyCleared criteria mask := fun hall => by
      simp [hall c he b hb hm] at hkept
    obtain ⟨hc, hl⟩ := h.resolve_left hstray
    rw [create_of_lt hle hc, hl]
    rfl

theorem noBitIgnored_smac : NoBitIgnored (fun _ => none) 1 [0xff] :=
  noBitIgnored_of_onlyCleared (fun _ => none) (by decide)
    (Or.inl fun c => by cases c <;> decide +kernel)

end Create

section Builders

/-- A step of `dr_matcher_set_ste_builders`: its condition, and the fields left behind it. -/
structure Builder where
  selects : Param → Bool
  build : Param → Param

def runBuilders (builders : List Builder) (m : Param) : ℕ × Param :=
  builders.foldl (fun r b => if b.selects r.2 then (r.1 + 1, b.build r.2) else r) (0, m)

/-- `dr_matcher_set_ste_builders` of a NIC domain on a device without definers, after its check. -/
def drMatcherSetSteBuilders (builders : List Builder) (criteria : UInt8) (m : Param) :
    Option Errno :=
  let mask : Param := fun c => if enabled criteria c then m c else Param.zero c
  let (idx, rest) := runBuilders builders mask
  let idx := if criteria = 0 then idx + 1 else idx
  if idx = 0 then some .einval
  else if drMatcherIsMaskConsumed rest.bytes criteria then none
  else some .eopnotsupp

theorem runBuilders_of_none {builders : List Builder} {m : Param}
    (h : ∀ b ∈ builders, b.selects m = false) : runBuilders builders m = (0, m) := by
  unfold runBuilders
  generalize 0 = n
  induction builders with
  | nil => rfl
  | cons b bs ih =>
    rw [foldl_cons, h b mem_cons_self, if_neg Bool.false_ne_true]
    exact ih fun b' hb' => h b' (mem_cons_of_mem b hb')

/-- The first bit of `reserved_at_c0` in the outer section. -/
def reservedMask : List UInt8 := List.replicate 24 0 ++ [0x80]

/-- The copy sets `errno` but returns 0, and no builder looks at `reserved_at_c0`. -/
theorem not_noBitIgnored_reserved :
    (drMatcherCopyParam 1 (some reservedMask)).map (fun r => (r.ret, r.errno)) =
        some (none, some .eopnotsupp) ∧ ∀ builders : List Builder,
        (∀ b ∈ builders, b.selects (fill 1 .zero reservedMask) = false) →
        mlx5dvDrMatcherCreate (drMatcherSetSteBuilders builders 1) 1 (some reservedMask) =
            some (.error .einval) ∧
          ¬ NoBitIgnored (drMatcherSetSteBuilders builders 1) 1 reservedMask := by
  have hpre : drSteBuildPreCheck 1 (fill 1 .zero reservedMask) = none := by decide +kernel
  have hmask : (fun c => if enabled 1 c then fill 1 .zero reservedMask c else Param.zero c) =
      fill 1 .zero reservedMask := by
    funext c
    unfold fill
    split <;> rfl
  refine ⟨by decide +kernel, fun builders hnone => ?_⟩
  have hlater : drMatcherSetSteBuilders builders 1 (fill 1 .zero reservedMask) =
      some .einval := by
    simp only [drMatcherSetSteBuilders, hmask, runBuilders_of_none hnone]
    decide
  have hcreate : mlx5dvDrMatcherCreate (drMatcherSetSteBuilders builders 1) 1
      (some reservedMask) = some (.error .einval) := by
    rw [create_of_lt (by decide) (by decide), hpre, hlater]
    rfl
  refine ⟨hcreate, fun h => ?_⟩
  have hle : reservedMask.length ≤ paramSz := by decide
  obtain ⟨st, hrun, -⟩ := drSteCopyParam_clear 1 .zero (length_extended hle)
  have hleft := (bitAt_left (c := .outer) (b := 0xc0) hle hrun (by decide) (by decide)).mpr
    ⟨by decide +kernel, by decide +kernel⟩
  have hans := h.refused st hrun ⟨_, _, by decide, by decide, hleft⟩
  rw [hcreate] at hans
  simp at hans

end Builders

end Fusa.Steering
