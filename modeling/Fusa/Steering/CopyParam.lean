import Fusa.Steering.MatchLayout
import Mathlib.Data.List.GetD
import Mathlib.Tactic.Ring

/-! `dr_ste_copy_param`: the fields of a match parameter out of the caller's buffer. -/
namespace Fusa.Steering
open Function List Option

variable (criteria : UInt8) (p : List UInt8) (setParam : Param)

/-- Dword `i` of the buffer in host order. -/
def be32 (i : ℕ) : BitVec 32 :=
  (p.getD (4 * i) 0).toBitVec ++ (p.getD (4 * i + 1) 0).toBitVec ++
    (p.getD (4 * i + 2) 0).toBitVec ++ (p.getD (4 * i + 3) 0).toBitVec

def setBe32 (i : ℕ) (d : BitVec 32) : List UInt8 :=
  p.take (4 * i) ++ [⟨d.extractLsb' 24 8⟩, ⟨d.extractLsb' 16 8⟩, ⟨d.extractLsb' 8 8⟩,
    ⟨d.extractLsb' 0 8⟩] ++ p.drop (4 * i + 4)

def dwBitOff (w off : ℕ) : ℕ := 32 - w - off % 32

def devxGet (off w : ℕ) : ℕ := (be32 p (off / 32) >>> dwBitOff w off).toNat % 2 ^ w

/-- `_devx_set` of the value 0. -/
def devxClear (off w : ℕ) : List UInt8 :=
  setBe32 p (off / 32)
    (be32 p (off / 32) &&& ~~~(BitVec.ofNat 32 (2 ^ w - 1) <<< dwBitOff w off))

/-- The assignments of a `dr_ste_copy_mask_*`: the fields, and what is left in the buffer. -/
def copyFields (clear : Bool) (p : List UInt8) (off : ℕ) : Layout → List ℕ × List UInt8
  | [] => ([], p)
  | f :: fs =>
    let p' := if clear && f.clear then devxClear p off f.width else p
    let r := copyFields clear p' (off + f.width) fs
    (devxGet p off f.width :: r.1, r.2)

/-- A `dr_ste_copy_mask_*` on the bytes `p`; `none` if it reads past them. -/
def copyMask (l : Layout) (clear : Bool) (p : List UInt8) : Option (List ℕ × List UInt8) :=
  if p.length < sectionSz then none else some (copyFields clear p 0 l)

def drSteCopyMaskSpec := copyMask drMatchSpec

def drSteCopyMaskMisc := copyMask drMatchSetMisc

def drSteCopyMaskMisc2 := copyMask drMatchSetMisc2

def drSteCopyMaskMisc3 := copyMask drMatchSetMisc3

def drSteCopyMaskMisc4 := copyMask drMatchSetMisc4

def drSteCopyMaskMisc5 := copyMask drMatchSetMisc5

def Criterion.copyMask : Criterion → Bool → List UInt8 → Option (List ℕ × List UInt8)
  | outer => drSteCopyMaskSpec
  | misc => drSteCopyMaskMisc
  | inner => drSteCopyMaskSpec
  | misc2 => drSteCopyMaskMisc2
  | misc3 => drSteCopyMaskMisc3
  | misc4 => drSteCopyMaskMisc4
  | misc5 => drSteCopyMaskMisc5

theorem Criterion.copyMask_eq (c : Criterion) : c.copyMask = Steering.copyMask c.layout := by
  cases c <;> rfl

/-- `struct dr_match_param`: the values of each section in the order of its layout. -/
abbrev Param := Criterion → List ℕ

/-- `struct dr_match_param param = {}`. -/
def Param.zero : Param := fun c => c.layout.map fun _ => 0

/-- `memcpy(dst, src + off, len)`; `none` if it leaves one of the two buffers. -/
def memcpy (dst src : List UInt8) (off len : ℕ) : Option (List UInt8) :=
  if src.length < off + len ∨ dst.length < len then none
  else some ((src.drop off).take len ++ dst.drop len)

/-- A difference of two `size_t`. -/
def sizeSub (a b : ℕ) : ℕ := (a + 2 ^ 64 - b) % 2 ^ 64

structure CopyState where
  tailParam : List UInt8
  maskBuf : List UInt8
  setParam : Param

/-- One section of `dr_ste_copy_param`. -/
def copySection (maskSz : ℕ) (clear : Bool) (st : CopyState) (c : Criterion) :
    Option CopyState :=
  if enabled criteria c then
    if maskSz < c.loc + sectionSz then do
      let tail ← memcpy st.tailParam st.maskBuf c.loc (sizeSub maskSz c.loc)
      let (vs, tail) ← c.copyMask clear tail
      some { st with tailParam := tail, setParam := Function.update st.setParam c vs }
    else do
      let (vs, p) ← c.copyMask clear (st.maskBuf.drop c.loc)
      some { st with
        maskBuf := st.maskBuf.take c.loc ++ p, setParam := Function.update st.setParam c vs }
  else some st

def drSteCopyParam (maskBuf : List UInt8) (maskSz : ℕ)
    (clear : Bool) : Option CopyState :=
  Criterion.all.foldlM (copySection criteria maskSz clear)
    ⟨List.replicate paramSz 0, maskBuf, setParam⟩

theorem be32_congr {p q : List UInt8} (h : ∀ k, p.getD k 0 = q.getD k 0) (i : ℕ) :
    be32 p i = be32 q i := by
  simp only [be32, h]

def readFields (off : ℕ) (l : Layout) : List ℕ := (copyFields false p off l).1

theorem copyFields_false (off : ℕ) (l : Layout) :
    copyFields false p off l = (readFields p off l, p) := by
  have hkept : (copyFields false p off l).2 = p := by
    induction l generalizing off with
    | nil => rfl
    | cons f fs ih => exact ih (off + f.width)
  exact Prod.ext rfl hkept

theorem readFields_congr {p q : List UInt8} (h : ∀ k, p.getD k 0 = q.getD k 0) (off : ℕ)
    (l : Layout) : readFields p off l = readFields q off l := by
  induction l generalizing off with
  | nil => rfl
  | cons f fs ih =>
    have hrec := ih (off + f.width)
    simp only [readFields, copyFields, Bool.false_and, Bool.false_eq_true, if_false, devxGet,
      be32_congr h] at hrec ⊢
    rw [hrec]

theorem getD_append_zeros (buf : List UInt8) (n k : ℕ) :
    (buf ++ List.replicate n (0 : UInt8)).getD k 0 = buf.getD k 0 := by
  simp only [getD_eq_getElem?_getD, List.getElem?_append, List.getElem?_replicate]
  split
  · rfl
  · rw [List.getElem?_eq_none (by omega)]
    split <;> rfl

theorem length_extended {buf : List UInt8} (h : buf.length ≤ paramSz) :
    (buf ++ List.replicate (paramSz - buf.length) (0 : UInt8)).length = paramSz := by
  rw [length_append, length_replicate]
  omega

/-- What a run without `clear` puts into a section; bytes behind the buffer count as zero. -/
def fill (buf : List UInt8) : Param := fun c =>
  if enabled criteria c then readFields (buf.drop c.loc) 0 c.layout else setParam c

section Short

variable {criteria : UInt8} {buf : List UInt8} {st : CopyState} {c : Criterion}
  {sz : ℕ} {clear : Bool} {cs : List Criterion}

theorem drSteCopyParam_eq : drSteCopyParam criteria setParam buf sz clear =
    (Criterion.all.filter (enabled criteria)).foldlM (copySection criteria sz clear)
      ⟨List.replicate paramSz 0, buf, setParam⟩ := by
  rw [foldlM_filter, drSteCopyParam]
  congr
  funext st c
  unfold copySection
  split <;> rfl

section
variable (h : enabled criteria c = true)
include h

theorem copySection_whole (hb : st.maskBuf = buf) (hl : c.loc + sectionSz ≤ buf.length) :
    copySection criteria buf.length false st c = some { st with
      setParam := update st.setParam c (readFields (buf.drop c.loc) 0 c.layout) } := by
  have hnot : ¬ buf.length < c.loc + sectionSz := by omega
  have hlen : ¬ (buf.drop c.loc).length < sectionSz := by
    rw [length_drop]
    omega
  simp only [copySection, h, if_true, hnot, if_false, hb, Criterion.copyMask_eq, copyMask, hlen,
    copyFields_false, bind_eq_bind, bind_some, take_append_drop]

/-- The buffer ends in the section, and the tail is still zero. -/
theorem copySection_partial (hb : st.maskBuf = buf) (hz : st.tailParam = List.replicate paramSz 0)
    (hc : c.loc ≤ buf.length) (hl : buf.length < c.loc + sectionSz) :
    ∃ tail, copySection criteria buf.length false st c = some { st with
      tailParam := tail
      setParam := update st.setParam c (readFields (buf.drop c.loc) 0 c.layout) } := by
  have hmax := c.loc_add_le
  have hsub : sizeSub buf.length c.loc = buf.length - c.loc := by
    simp only [sizeSub, sectionSz, paramSz] at *
    omega
  have hfit : ¬ (buf.length < c.loc + (buf.length - c.loc) ∨
      paramSz < buf.length - c.loc) := by
    omega
  have hcopy : memcpy st.tailParam st.maskBuf c.loc (sizeSub buf.length c.loc) =
      some (buf.drop c.loc ++ List.replicate (paramSz - (buf.length - c.loc)) 0) := by
    have htake : (buf.drop c.loc).take (buf.length - c.loc) = buf.drop c.loc :=
      take_of_length_le (Nat.le_of_eq length_drop)
    simp only [memcpy, hsub, hb, hz, length_replicate, hfit, if_false, htake, drop_replicate]
  have hlen : ¬ (buf.drop c.loc ++
      List.replicate (paramSz - (buf.length - c.loc)) (0 : UInt8)).length < sectionSz := by
    simp only [length_append, length_drop, length_replicate, sectionSz, paramSz] at *
    omega
  have hread : readFields (buf.drop c.loc ++
      List.replicate (paramSz - (buf.length - c.loc)) 0) 0 c.layout =
      readFields (buf.drop c.loc) 0 c.layout :=
    readFields_congr (getD_append_zeros _ _) 0 c.layout
  refine ⟨buf.drop c.loc ++ List.replicate (paramSz - (buf.length - c.loc)) 0, ?_⟩
  simp only [copySection, h, if_true, hl, hcopy, Criterion.copyMask_eq, copyMask, hlen, if_false,
    copyFields_false, bind_eq_bind, bind_some, hread]

theorem copySection_fault (ht : st.tailParam.length ≤ paramSz) (hl : sz < c.loc) :
    copySection criteria sz clear st c = none := by
  have hmax := c.loc_add_le
  have hlt : sz < c.loc + sectionSz := by omega
  have hwrap : st.tailParam.length < sizeSub sz c.loc := by
    simp only [sizeSub, sectionSz, paramSz] at *
    omega
  have hcopy : memcpy st.tailParam st.maskBuf c.loc (sizeSub sz c.loc) = none := by
    rw [memcpy, if_pos (Or.inr hwrap)]
  simp only [copySection, h, if_true, hlt, hcopy, bind_eq_bind, bind_none]

end

/-- Sections in turn: the tail is zero where the buffer ends, and none is behind. -/
theorem foldlM_copySection (st : CopyState)
    (hp : cs.Pairwise (fun c d => c.loc + sectionSz ≤ d.loc))
    (hs : ∀ c ∈ cs, enabled criteria c = true ∧ c.loc ≤ buf.length) (hb : st.maskBuf = buf)
    (hz : st.tailParam = List.replicate paramSz 0 ∨ cs = []) :
    ∃ st', cs.foldlM (copySection criteria buf.length false) st = some st' ∧
      st'.setParam = fun c => if c ∈ cs
        then readFields (buf.drop c.loc) 0 c.layout else st.setParam c := by
  induction cs generalizing st with
  | nil => exact ⟨st, rfl, by simp⟩
  | cons c cs ih =>
    obtain ⟨hfst, hrest⟩ := pairwise_cons.mp hp
    obtain ⟨he, hloc⟩ := hs c mem_cons_self
    have hzero := hz.resolve_right (cons_ne_nil c cs)
    -- in both cases the section is read, and the tail is used for the last one only
    have hstep : ∃ tail, copySection criteria buf.length false st c = some { st with
        tailParam := tail
        setParam := update st.setParam c (readFields (buf.drop c.loc) 0 c.layout) } ∧
        (tail = List.replicate paramSz 0 ∨ cs = []) := by
      rcases Nat.lt_or_ge buf.length (c.loc + sectionSz) with hlt | hge
      · obtain ⟨tail, ht⟩ := copySection_partial he hb hzero hloc hlt
        refine ⟨tail, ht, Or.inr (eq_nil_iff_forall_not_mem.mpr fun d hd => ?_)⟩
        have := hfst d hd
        have := (hs d (mem_cons_of_mem c hd)).2
        omega
      · exact ⟨st.tailParam, copySection_whole he hb hge, Or.inl hzero⟩
    obtain ⟨tail, hrun₁, hz'⟩ := hstep
    obtain ⟨st', hrun, hset⟩ := ih { st with
      tailParam := tail
      setParam := update st.setParam c (readFields (buf.drop c.loc) 0 c.layout) }
      hrest (fun d hd => hs d (mem_cons_of_mem c hd)) hb hz'
    refine ⟨st', ?_, ?_⟩
    · rwa [foldlM_cons, hrun₁]
    · rw [hset]
      funext d
      by_cases hd : d = c
      · subst hd
        simp
      · simp [hd]

theorem drSteCopyParam_fill (hs : ∀ c, enabled criteria c = true → c.loc ≤ buf.length) :
    ∃ st, drSteCopyParam criteria setParam buf buf.length false = some st ∧
      st.setParam = fill criteria setParam buf := by
  obtain ⟨st, hrun, hset⟩ := foldlM_copySection ⟨List.replicate paramSz 0, buf, setParam⟩
    (Criterion.pairwise_all.filter (enabled criteria))
    (fun c hc => ⟨(mem_filter.mp hc).2, hs c (mem_filter.mp hc).2⟩) rfl (Or.inl rfl)
  refine ⟨st, (drSteCopyParam_eq setParam).trans hrun, ?_⟩
  rw [hset]
  funext c
  simp [fill, Criterion.mem_all]

theorem copySection_tail_length {st' : CopyState}
    (h : copySection criteria sz false st c = some st') :
    st'.tailParam.length = st.tailParam.length := by
  unfold copySection at h
  split at h
  · split at h
    · obtain ⟨tail, hcopy, hrest⟩ := bind_eq_some_iff.mp h
      obtain ⟨r, hmask, heq⟩ := bind_eq_some_iff.mp hrest
      have hlen : tail.length = st.tailParam.length := by
        unfold memcpy at hcopy
        split at hcopy
        · exact absurd hcopy (some_ne_none _).symm
        · rw [← some.inj hcopy, length_append, length_take, length_drop, length_drop]
          omega
      rw [Criterion.copyMask_eq, copyMask] at hmask
      split at hmask
      · exact absurd hmask (some_ne_none _).symm
      · rw [copyFields_false] at hmask
        rwa [← some.inj heq, ← some.inj hmask]
    · obtain ⟨r, hmask, heq⟩ := bind_eq_some_iff.mp h
      rw [← some.inj heq]
  · rw [← some.inj h]

theorem foldlM_copySection_fault (hc : c ∈ cs) (he : enabled criteria c = true) (hl : sz < c.loc)
    (ht : st.tailParam.length ≤ paramSz) : cs.foldlM (copySection criteria sz false) st = none := by
  induction cs generalizing st with
  | nil => exact absurd hc not_mem_nil
  | cons d ds ih =>
    rw [foldlM_cons]
    rcases mem_cons.mp hc with rfl | hmem
    · rw [copySection_fault he ht hl]
      rfl
    · cases hstep : copySection criteria sz false st d with
      | none => rfl
      | some st' =>
        apply ih hmem
        rwa [copySection_tail_length hstep]

end Short

theorem fill_append_zeros (buf : List UInt8) (n : ℕ) :
    fill criteria setParam (buf ++ List.replicate n 0) = fill criteria setParam buf := by
  funext c
  unfold fill
  congr 1
  apply readFields_congr
  intro k
  have hdrop : ∀ l : List UInt8, (l.drop c.loc).getD k 0 = l.getD (c.loc + k) 0 := by
    intro l
    simp [getD_eq_getElem?_getD, List.getElem?_drop]
  rw [hdrop, hdrop, getD_append_zeros]

end Fusa.Steering
