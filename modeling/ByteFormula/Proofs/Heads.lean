import ByteFormula.Code.Head
import ByteFormula.Code.Space
import ByteFormula.Code.Arity

/-! The layout of heads. A head within its bounds has one layout, which is what is written for it
and what it is read from, and nothing else is read. -/
namespace ByteFormula.Head

def Fits : Head → Prop
  | .data length => length ≤ maxInlineData
  | .short code => code < 64
  | .long code arity => code < 0x400 ∧ arity ≤ maxCallArguments

def layout : Head → Bytes
  | .data length => [UInt8.ofNat (128 + length)]
  | .short code => [UInt8.ofNat code]
  | .long code arity =>
    [UInt8.ofNat (64 + 4 * arity + code / 256), UInt8.ofNat (code % 256)]

@[simp] theorem length_layout (head : Head) : head.layout.length = head.width := by
  cases head <;> rfl

/-- The fields of a long head do not overlap, so joining them adds them up. -/
private theorem longWord_eq {code arity : Nat} (hcode : code < 0x400)
    (harity : arity ≤ maxCallArguments) :
    longWord code arity = 0x4000 + 0x400 * arity + code := by
  unfold maxCallArguments at harity
  have hfield : (arity % 0x100) * 0x400 % 0x10000 = 0x400 * arity := by omega
  have htag : 0x4000 + 0x400 * arity = 0x4000 ||| 0x400 * arity :=
    Nat.two_pow_add_eq_or_of_lt (i := 14) (b := 0x400 * arity) (by omega) 1
  calc longWord code arity
      = 0x4000 ||| 0x400 * arity ||| code := by rw [longWord, hfield]
    _ = 0x400 * (16 + arity) ||| code := by rw [← htag, Nat.mul_add]
    _ = 0x400 * (16 + arity) + code := (Nat.two_pow_add_eq_or_of_lt (i := 10) hcode _).symm
    _ = 0x4000 + 0x400 * arity + code := by omega

theorem bytes_eq_layout {head : Head} (h : head.Fits) : head.bytes = head.layout := by
  cases head with
  | data length => rfl
  | short code =>
    have hcode : code < 64 := h
    rw [bytes, layout, Nat.mod_eq_of_lt hcode]
  | long code arity =>
    obtain ⟨hcode, harity⟩ := h
    rw [bytes, longWord_eq hcode harity]
    unfold maxCallArguments at harity
    have hfirst : (0x4000 + 0x400 * arity + code) / 256 % 256 = 64 + 4 * arity + code / 256 := by
      omega
    have hsecond : (0x4000 + 0x400 * arity + code) % 256 = code % 256 := by omega
    simp only [Bytes.ofNat, layout, hfirst, hsecond, List.nil_append, List.cons_append]

theorem read_layout {head : Head} (h : head.Fits) (rest : Bytes) :
    read (head.layout ++ rest) = .ok head := by
  cases head with
  | data length =>
    have hlength : length ≤ 127 := h
    have hbyte : (UInt8.ofNat (128 + length)).toNat = 128 + length := by
      rw [UInt8.toNat_ofNat']
      omega
    simp only [layout, List.cons_append, read, hbyte]
    rw [if_pos (by omega), Nat.add_sub_cancel_left]
  | short code =>
    have hcode : code < 64 := h
    have hbyte : (UInt8.ofNat code).toNat = code := by
      rw [UInt8.toNat_ofNat']
      omega
    simp only [layout, List.cons_append, read, hbyte]
    rw [if_neg (by omega), if_pos (by omega)]
  | long code arity =>
    obtain ⟨hcode, harity⟩ := h
    unfold maxCallArguments at harity
    have hfirst : (UInt8.ofNat (64 + 4 * arity + code / 256)).toNat = 64 + 4 * arity + code / 256 := by
      rw [UInt8.toNat_ofNat']
      omega
    have hsecond : (UInt8.ofNat (code % 256)).toNat = code % 256 := by
      rw [UInt8.toNat_ofNat']
      omega
    simp only [layout, List.cons_append, read, hfirst, hsecond]
    rw [if_neg (by omega), if_neg (by omega)]
    congr 2 <;> omega

/-- Whatever is read as a head is the layout of a head within its bounds. -/
theorem read_ok {bytes : Bytes} {head : Head} (h : read bytes = .ok head) :
    head.Fits ∧ bytes = head.layout ++ bytes.drop head.width := by
  unfold read at h
  split at h
  · cases h
  rename_i first rest
  have hfirst := first.toNat_lt
  split at h
  · cases h
    have hbyte : 128 + (first.toNat - 0x80) = first.toNat := by omega
    refine ⟨show first.toNat - 0x80 ≤ 127 by omega, ?_⟩
    simp only [layout, hbyte, UInt8.ofNat_toNat, width, List.drop_one, List.tail_cons,
      List.singleton_append]
  split at h
  · rename_i hcode
    cases h
    refine ⟨hcode, ?_⟩
    simp [layout, width]
  split at h
  · cases h
  rename_i second rest
  have hsecond := second.toNat_lt
  cases h
  let word := 256 * first.toNat + second.toNat
  have hupper : 64 + 4 * (word / 0x400 % 0x10) + word % 0x400 / 256 = first.toNat := by omega
  have hlower : word % 0x400 % 256 = second.toNat := by omega
  refine ⟨⟨by omega, show word / 0x400 % 0x10 ≤ 15 by omega⟩, ?_⟩
  simp only [layout, word, hupper, hlower, UInt8.ofNat_toNat, width, List.cons_append, List.nil_append,
    List.drop_succ_cons, List.drop_zero]

end ByteFormula.Head
