import Fusa.Steering.CopyParam

/-! What `dr_ste_copy_param` does to each bit of a section. -/
namespace Fusa.Steering
open List Nat

def bitAt (p : List UInt8) (b : ℕ) : Bool := (be32 p (b / 32)).getLsbD (31 - b % 32)

def fieldBit : ℕ → Layout → List ℕ → ℕ → Bool
  | off, f :: fs, v :: vs, b =>
    if b < off + f.width then v.testBit (off + f.width - 1 - b)
    else fieldBit (off + f.width) fs vs b
  | _, _, _, _ => false

def Layout.clears : ℕ → Layout → ℕ → Bool
  | _, [], _ => false
  | off, f :: fs, b => if b < off + f.width then f.clear else Layout.clears (off + f.width) fs b

section Dwords

variable {p : List UInt8} {i j off w b : ℕ}

@[simp] theorem length_setBe32 (d : BitVec 32) (h : 4 * i + 4 ≤ p.length) :
    (setBe32 p i d).length = p.length := by
  simp only [setBe32, length_append, length_take, length_drop, length_cons, length_nil]
  omega

theorem be32_bytes (d : BitVec 32) :
    d.extractLsb' 24 8 ++ d.extractLsb' 16 8 ++ d.extractLsb' 8 8 ++ d.extractLsb' 0 8 = d := by
  apply BitVec.eq_of_getLsbD_eq
  intro k hk
  simp only [BitVec.getLsbD_append, BitVec.getLsbD_extractLsb']
  split_ifs
  all_goals
    rw [decide_eq_true (by omega), Bool.true_and]
    congr 1
    omega

theorem be32_setBe32 (d : BitVec 32) (h : 4 * i + 4 ≤ p.length) :
    be32 (setBe32 p i d) j = if j = i then d else be32 p j := by
  have hlen : (p.take (4 * i)).length = 4 * i := by
    rw [length_take]
    omega
  have hget : ∀ k, (setBe32 p i d).getD k 0 =
      if k < 4 * i then p.getD k 0
      else if k < 4 * i + 4 then
        [(⟨d.extractLsb' 24 8⟩ : UInt8), ⟨d.extractLsb' 16 8⟩, ⟨d.extractLsb' 8 8⟩,
          ⟨d.extractLsb' 0 8⟩].getD (k - 4 * i) 0
      else p.getD k 0 := by
    intro k
    simp only [setBe32, getD_eq_getElem?_getD, append_assoc]
    split_ifs with h₁ h₂
    · rw [List.getElem?_append_left (by omega), List.getElem?_take_of_lt h₁]
    · rw [List.getElem?_append_right (by omega), hlen, List.getElem?_append_left]
      simp only [length_cons, length_nil]
      omega
    · rw [List.getElem?_append_right (by omega), hlen, List.getElem?_append_right]
      · rw [List.getElem?_drop]
        congr 2
        simp only [length_cons, length_nil]
        omega
      · simp only [length_cons, length_nil]
        omega
  split_ifs with hji
  · subst hji
    have hk : ∀ k < 4, (setBe32 p j d).getD (4 * j + k) 0 =
        [(⟨d.extractLsb' 24 8⟩ : UInt8), ⟨d.extractLsb' 16 8⟩, ⟨d.extractLsb' 8 8⟩,
          ⟨d.extractLsb' 0 8⟩].getD k 0 := by
      intro k hk
      rw [hget, if_neg (by omega), if_pos (by omega), Nat.add_sub_cancel_left]
    have h0 := hk 0 (by omega)
    rw [add_zero] at h0
    simp only [be32, h0, hk 1 (by omega), hk 2 (by omega), hk 3 (by omega)]
    exact be32_bytes d
  · have hk : ∀ k < 4, (setBe32 p i d).getD (4 * j + k) 0 = p.getD (4 * j + k) 0 := by
      intro k hk
      rw [hget]
      split_ifs
      · rfl
      · omega
      · rfl
    have h0 := hk 0 (by omega)
    rw [add_zero] at h0
    simp only [be32, h0, hk 1 (by omega), hk 2 (by omega), hk 3 (by omega)]

theorem testBit_devxGet (hw : off % 32 + w ≤ 32) (h₁ : off ≤ b) (h₂ : b < off + w) :
    (devxGet p off w).testBit (off + w - 1 - b) = bitAt p b := by
  have hdiv : b / 32 = off / 32 := by omega
  have hlt : off + w - 1 - b < w := by omega
  have hpos : dwBitOff w off + (off + w - 1 - b) = 31 - b % 32 := by
    simp only [dwBitOff]
    omega
  rw [devxGet, testBit_mod_two_pow, decide_eq_true hlt, Bool.true_and, BitVec.testBit_toNat,
    BitVec.getLsbD_ushiftRight, hpos, bitAt, hdiv]

theorem bitAt_devxClear (hw : off % 32 + w ≤ 32) (hp : 0 < w) (hl : 4 * (off / 32) + 4 ≤ p.length) :
    bitAt (devxClear p off w) b = (bitAt p b && !(decide (off ≤ b) && decide (b < off + w))) := by
  rw [bitAt, devxClear, be32_setBe32 _ hl]
  split_ifs with hdiv
  · have hin : decide (31 - b % 32 < 32) = true := decide_eq_true (by omega)
    rw [BitVec.getLsbD_and, BitVec.getLsbD_not, BitVec.getLsbD_shiftLeft, BitVec.getLsbD_ofNat,
      testBit_two_pow_sub_one, hin, bitAt, hdiv]
    congr 1
    rw [Bool.true_and]
    congr 1
    rw [Bool.eq_iff_iff]
    have hd : dwBitOff w off = 32 - w - off % 32 := rfl
    simp only [Bool.and_eq_true, Bool.not_eq_true', decide_eq_true_eq, decide_eq_false_iff_not,
      true_and]
    omega
  · have hout : (decide (off ≤ b) && decide (b < off + w)) = false := by
      rw [Bool.and_eq_false_iff, decide_eq_false_iff_not, decide_eq_false_iff_not]
      omega
    rw [hout, Bool.not_false, Bool.and_true, bitAt]

theorem length_devxClear (hl : 4 * (off / 32) + 4 ≤ p.length) :
    (devxClear p off w).length = p.length :=
  length_setBe32 _ hl

end Dwords

section Section

variable {l : Layout} {off b : ℕ}

theorem Layout.Fits.le (h : l.Fits off) : off ≤ 8 * sectionSz := by
  induction l generalizing off with
  | nil => exact le_of_eq h
  | cons f fs ih =>
    have := ih h.2.2
    omega

variable {p q : List UInt8}

theorem Layout.Fits.dword {f : Fld} {fs : Layout} (h : Layout.Fits off (f :: fs))
    (hp : sectionSz ≤ p.length) : 4 * (off / 32) + 4 ≤ p.length := by
  have hend := Layout.Fits.le h.2.2
  have hpos := h.1
  simp only [sectionSz] at *
  omega

section
variable (clear : Bool) (h : l.Fits off) (hp : sectionSz ≤ p.length)
include clear h hp

theorem length_copyFields : (copyFields clear p off l).2.length = p.length := by
  induction l generalizing off p with
  | nil => rfl
  | cons f fs ih =>
    have hone : (if clear && f.clear then devxClear p off f.width else p).length =
        p.length := by
      split
      · exact length_devxClear (h.dword hp)
      · rfl
    rw [copyFields]
    rw [ih h.2.2 (by rw [hone]; exact hp), hone]

theorem fieldBit_copyFields (hb : off ≤ b) (hb' : b < 8 * sectionSz) :
    fieldBit off l (copyFields clear p off l).1 b = bitAt p b := by
  induction l generalizing off p with
  | nil =>
    have : off = 8 * sectionSz := h
    omega
  | cons f fs ih =>
    simp only [copyFields, fieldBit]
    split_ifs with hlt hc
    · exact testBit_devxGet h.2.1 hb hlt
    · rw [ih h.2.2 (by rw [length_devxClear (h.dword hp)]; exact hp) (Nat.le_of_not_lt hlt),
        bitAt_devxClear h.2.1 h.1 (h.dword hp), decide_eq_false hlt, Bool.and_false,
        Bool.not_false, Bool.and_true]
    · exact ih h.2.2 hp (Nat.le_of_not_lt hlt)

end

theorem bitAt_copyFields (h : l.Fits off) (hp : sectionSz ≤ p.length) :
    bitAt (copyFields true p off l).2 b = (bitAt p b && !(decide (off ≤ b) && l.clears off b)) := by
  induction l generalizing off p with
  | nil => simp [copyFields, Layout.clears]
  | cons f fs ih =>
    have hw := h.1
    simp only [copyFields, Layout.clears, Bool.true_and]
    cases hc : f.clear with
    | false =>
      rw [if_neg Bool.false_ne_true, ih h.2.2 hp]
      congr 2
      split_ifs with hlt
      · rw [decide_eq_false (by omega), Bool.false_and, Bool.and_false]
      · rw [decide_eq_true (by omega), decide_eq_true (by omega)]
    | true =>
      rw [if_pos rfl, ih h.2.2 (by rw [length_devxClear (h.dword hp)]; exact hp),
        bitAt_devxClear h.2.1 h.1 (h.dword hp), Bool.and_assoc]
      congr 1
      split_ifs with hlt
      · rw [decide_eq_true hlt, decide_eq_false (by omega : ¬ off + f.width ≤ b)]
        simp
      · rw [decide_eq_false hlt, decide_eq_true (by omega : off ≤ b),
          decide_eq_true (by omega : off + f.width ≤ b)]
        simp

theorem Layout.clears_of_le (h : l.Fits off) (hb : 8 * sectionSz ≤ b) : l.clears off b = false := by
  induction l generalizing off with
  | nil => rfl
  | cons f fs ih =>
    have hend := Layout.Fits.le h.2.2
    rw [Layout.clears, if_neg (by omega)]
    exact ih h.2.2

theorem devxGet_congr {w : ℕ} (hw : off % 32 + w ≤ 32)
    (h : ∀ b, off ≤ b → b < off + w → bitAt p b = bitAt q b) :
    devxGet p off w = devxGet q off w := by
  apply eq_of_testBit_eq
  intro j
  rcases lt_or_ge j w with hj | hj
  · have hpos : j = off + w - 1 - (off + w - 1 - j) := by omega
    rw [hpos, testBit_devxGet hw (by omega) (by omega), testBit_devxGet hw (by omega) (by omega)]
    exact h _ (by omega) (by omega)
  · rw [devxGet, devxGet, testBit_mod_two_pow, testBit_mod_two_pow,
      decide_eq_false (not_lt_of_ge hj), Bool.false_and, Bool.false_and]

theorem copyFields_fst (clear : Bool) (hf : l.Fits off) (hp : sectionSz ≤ p.length)
    (h : ∀ b, off ≤ b → b < 8 * sectionSz → bitAt p b = bitAt q b) :
    (copyFields clear p off l).1 = readFields q off l := by
  induction l generalizing off p with
  | nil => rfl
  | cons f fs ih =>
    have hend := Layout.Fits.le hf.2.2
    have hget : devxGet p off f.width = devxGet q off f.width :=
      devxGet_congr hf.2.1 fun b h₁ h₂ => h b h₁ (by omega)
    have hrest : (copyFields clear (if clear && f.clear then devxClear p off f.width else p)
        (off + f.width) fs).1 = readFields q (off + f.width) fs := by
      split_ifs with hc
      · apply ih hf.2.2
        · rwa [length_devxClear (hf.dword hp)]
        · intro b h₁ h₂
          rw [bitAt_devxClear hf.2.1 hf.1 (hf.dword hp),
            decide_eq_false (by omega : ¬ b < off + f.width), Bool.and_false, Bool.not_false,
            Bool.and_true]
          exact h b (by omega) h₂
      · exact ih hf.2.2 hp fun b h₁ h₂ => h b (by omega) h₂
    rw [copyFields, hrest, hget]
    rfl

end Section

section Buffer

variable {buf : List UInt8} {criteria : UInt8}

theorem bitAt_drop (c : Criterion) (b : ℕ) :
    bitAt (buf.drop c.loc) b = bitAt buf (8 * c.loc + b) := by
  have hdw : ∀ i, be32 (buf.drop c.loc) i = be32 buf (16 * c.bit + i) := by
    intro i
    have hget : ∀ k, (buf.drop c.loc).getD (4 * i + k) 0 =
        buf.getD (4 * (16 * c.bit + i) + k) 0 := by
      intro k
      rw [getD_eq_getElem?_getD, getD_eq_getElem?_getD, List.getElem?_drop]
      congr 2
      simp only [Criterion.loc, sectionSz]
      omega
    have h0 := hget 0
    rw [add_zero, add_zero] at h0
    simp only [be32, h0, hget]
  have hdiv : (8 * c.loc + b) / 32 = 16 * c.bit + b / 32 := by
    simp only [Criterion.loc, sectionSz]
    omega
  have hmod : (8 * c.loc + b) % 32 = b % 32 := by
    simp only [Criterion.loc, sectionSz]
    omega
  rw [bitAt, bitAt, hdw, hdiv, hmod]

def cleared (buf : List UInt8) (c : Criterion) : List UInt8 :=
  buf.take c.loc ++ (copyFields true (buf.drop c.loc) 0 c.layout).2

theorem length_cleared (c : Criterion) (hl : buf.length = paramSz) :
    (cleared buf c).length = paramSz := by
  have hmax := c.loc_add_le
  have hrest : sectionSz ≤ (buf.drop c.loc).length := by
    rw [length_drop]
    omega
  rw [cleared, length_append, length_take, length_copyFields true c.fits hrest, length_drop]
  omega

theorem bitAt_cleared (c d : Criterion) {b : ℕ} (hl : buf.length = paramSz)
    (hb : b < 8 * sectionSz) : bitAt (cleared buf c) (8 * d.loc + b) =
      (bitAt buf (8 * d.loc + b) && !(decide (d = c) && c.layout.clears 0 b)) := by
  have hmax := c.loc_add_le
  have hrest : sectionSz ≤ (buf.drop c.loc).length := by
    rw [length_drop]
    omega
  have htake : (buf.take c.loc).length = c.loc := by
    rw [length_take]
    omega
  have hinj : d.bit = c.bit → d = c := by cases d <;> cases c <;> decide
  rcases lt_or_ge d.bit c.bit with hlt | hge
  · -- the section lies before the one that was copied
    have hne : d ≠ c := by
      rintro rfl
      omega
    have hget : ∀ k < c.loc, (cleared buf c).getD k 0 = buf.getD k 0 := by
      intro k hk
      rw [cleared, getD_append _ _ _ _ (by omega), getD_eq_getElem?_getD,
        getD_eq_getElem?_getD, List.getElem?_take_of_lt hk]
    have hdw : be32 (cleared buf c) ((8 * d.loc + b) / 32) = be32 buf ((8 * d.loc + b) / 32) := by
      have hin : 4 * ((8 * d.loc + b) / 32) + 3 < c.loc := by
        simp only [Criterion.loc, sectionSz] at *
        omega
      simp only [be32]
      rw [hget _ (by omega), hget _ (by omega), hget _ (by omega), hget _ hin]
    rw [bitAt, hdw, decide_eq_false hne, Bool.false_and, Bool.not_false, Bool.and_true, bitAt]
  · have hsplit : 8 * d.loc + b = 8 * c.loc + (8 * sectionSz * (d.bit - c.bit) + b) := by
      simp only [Criterion.loc, sectionSz]
      omega
    have hdrop : (cleared buf c).drop c.loc = (copyFields true (buf.drop c.loc) 0 c.layout).2 := by
      rw [cleared, drop_append_of_le_length (by omega), drop_of_length_le (by omega), nil_append]
    rw [hsplit, ← bitAt_drop, hdrop, bitAt_copyFields c.fits hrest, bitAt_drop,
      decide_eq_true (zero_le _), Bool.true_and]
    congr 2
    rcases eq_or_lt_of_le hge with heq | hgt
    · have hd := hinj heq.symm
      subst hd
      rw [Nat.sub_self, Nat.mul_zero, Nat.zero_add, decide_eq_true rfl, Bool.true_and]
    · have hne : d ≠ c := by
        rintro rfl
        omega
      have hout : 8 * sectionSz ≤ 8 * sectionSz * (d.bit - c.bit) + b := by
        simp only [sectionSz]
        omega
      rw [Layout.clears_of_le c.fits hout, decide_eq_false hne, Bool.false_and]

theorem copySection_clear {st : CopyState} {c : Criterion} (he : enabled criteria c = true)
    (hl : st.maskBuf.length = paramSz) :
    copySection criteria paramSz true st c = some { st with
      maskBuf := cleared st.maskBuf c
      setParam := Function.update st.setParam c
        (readFields (st.maskBuf.drop c.loc) 0 c.layout) } := by
  have hmax := c.loc_add_le
  have hrest : sectionSz ≤ (st.maskBuf.drop c.loc).length := by
    rw [length_drop]
    omega
  have hread : (copyFields true (st.maskBuf.drop c.loc) 0 c.layout).1 =
      readFields (st.maskBuf.drop c.loc) 0 c.layout :=
    copyFields_fst true c.fits hrest fun _ _ _ => rfl
  simp only [copySection, he, if_true, not_lt_of_ge hmax, if_false, Criterion.copyMask_eq,
    copyMask, not_lt_of_ge hrest, Option.bind_eq_bind, Option.bind_some, hread, cleared]

theorem foldlM_copySection_clear (st : CopyState) {cs : List Criterion} (hn : cs.Nodup)
    (he : ∀ c ∈ cs, enabled criteria c = true) (hl : st.maskBuf.length = paramSz) :
    ∃ st', cs.foldlM (copySection criteria paramSz true) st = some st' ∧
      st'.maskBuf.length = paramSz ∧ (∀ d b, b < 8 * sectionSz → bitAt st'.maskBuf (8 * d.loc + b) =
        (bitAt st.maskBuf (8 * d.loc + b) && !(decide (d ∈ cs) && d.layout.clears 0 b))) ∧
      st'.setParam = fun d => if d ∈ cs
        then readFields (st.maskBuf.drop d.loc) 0 d.layout else st.setParam d := by
  induction cs generalizing st with
  | nil => exact ⟨st, rfl, hl, by simp, by simp⟩
  | cons c cs ih =>
    obtain ⟨hc, hn'⟩ := nodup_cons.mp hn
    obtain ⟨st', hrun, hlen, hbits, hset⟩ := ih { st with
      maskBuf := cleared st.maskBuf c
      setParam := Function.update st.setParam c
        (readFields (st.maskBuf.drop c.loc) 0 c.layout) } hn'
      (fun d hd => he d (mem_cons_of_mem c hd)) (length_cleared c hl)
    refine ⟨st', ?_, hlen, ?_, ?_⟩
    · rwa [foldlM_cons, copySection_clear (he c mem_cons_self) hl]
    · intro d b hb
      rw [hbits d b hb, bitAt_cleared c d hl hb, Bool.and_assoc]
      by_cases hd : d = c
      · subst hd
        simp [hc]
      · simp [hd]
    · rw [hset]
      funext d
      by_cases hd : d = c
      · subst hd
        simp [hc]
      · -- the copy of another section leaves this one alone
        have hsec : readFields ((cleared st.maskBuf c).drop d.loc) 0 d.layout =
            readFields (st.maskBuf.drop d.loc) 0 d.layout := by
          have hmax := d.loc_add_le
          apply copyFields_fst false d.fits
          · rw [length_drop, length_cleared c hl]
            omega
          · intro b _ hb
            rw [bitAt_drop, bitAt_drop, bitAt_cleared c d hl hb, decide_eq_false hd,
              Bool.false_and, Bool.not_false, Bool.and_true]
        simp [hd, hsec]

/-- A whole copy with `clear` reads every enabled section; bits in fields not cleared stay. -/
theorem drSteCopyParam_clear (criteria : UInt8) (setParam : Param) (hl : buf.length = paramSz) :
    ∃ st, drSteCopyParam criteria setParam buf paramSz true = some st ∧
      st.maskBuf.length = paramSz ∧ (∀ c b, b < 8 * sectionSz → bitAt st.maskBuf (8 * c.loc + b) =
        (bitAt buf (8 * c.loc + b) && !(enabled criteria c && c.layout.clears 0 b))) ∧
      st.setParam = fill criteria setParam buf := by
  have hall : Criterion.all.Nodup := by decide
  obtain ⟨st, hrun, hlen, hbits, hset⟩ := foldlM_copySection_clear
    ⟨List.replicate paramSz 0, buf, setParam⟩ (hall.filter (enabled criteria))
    (fun c hc => (mem_filter.mp hc).2) hl
  refine ⟨st, (drSteCopyParam_eq setParam).trans hrun, hlen, ?_, ?_⟩
  · intro c b hb
    rw [hbits c b hb]
    simp [Criterion.mem_all]
  · rw [hset]
    funext c
    simp [fill, Criterion.mem_all]

end Buffer

end Fusa.Steering
