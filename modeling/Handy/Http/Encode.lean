import Handy.Http.Message
import Mathlib.Algebra.Group.Nat.Defs

/-! # HTTP messages and their encoders

`encode` appends the start line, the headers in the order of the map, the two
headers every message gets, and the body. The start line and the length header
are formatted into arrays of fixed size first, so what does not fit is cut off.
-/

namespace Handy

/-! ## Formatting -/

/-- `%lu`. -/
def decimal (n : Nat) : Bytes := (Nat.toDigits 10 n).map fun c => UInt8.ofNat c.toNat

/-- `%d`. -/
def signedDecimal (v : Int) : Bytes :=
  if v < 0 then 0x2d :: decimal v.natAbs else decimal v.natAbs

/-- `%s` of `s.c_str()`. -/
def cStr (s : Bytes) : Bytes := s.takeWhile (· != 0)

/-- What `snprintf` leaves in an array of this size, up to its terminator. -/
def snprintf (size : Nat) (text : Bytes) : Bytes := text.take (size - 1)

/-- `"\r\n"`. -/
def crlf : Bytes := [0x0d, 0x0a]

namespace HttpMsg

/-- `getBody().size()`. -/
def Body.size : Body → Nat
  | .copied bytes => bytes.length
  | .inBuffer s => toSize (s.pe - s.pb)

/-- The bytes of the body; `memory` is the block `body2` points into. -/
def Body.read (memory : Bytes) : Body → Bytes
  | .copied bytes => bytes
  | .inBuffer s => Slice.read s memory

/-- A body whose slice, if it is one, lies in `memory`. -/
def Body.Lies (memory : Bytes) : Body → Prop
  | .copied _ => True
  | .inBuffer s => s.Within memory.length

theorem Body.size_eq {memory : Bytes} {body : Body} (h : body.Lies memory)
    (hsize : (body.read memory).length < 2 ^ 64) : body.size = (body.read memory).length := by
  cases body with
  | copied bytes => rfl
  | inBuffer s =>
      obtain ⟨hb, he, hlen⟩ := h
      simp only [read, Slice.read, List.length_take, List.length_drop] at hsize ⊢
      have hdiff : (s.pe - s.pb).toNat ≤ memory.length - s.pb.toNat := by omega
      rw [Nat.min_eq_left hdiff] at hsize ⊢
      simp only [size, toSize]
      omega

/-- `"Connection"`. -/
def connection : Bytes := [0x43, 0x6f, 0x6e, 0x6e, 0x65, 0x63, 0x74, 0x69, 0x6f, 0x6e]

/-- `"Keep-Alive"`. -/
def keepAlive : Bytes := [0x4b, 0x65, 0x65, 0x70, 0x2d, 0x41, 0x6c, 0x69, 0x76, 0x65]

/-- `"Content-Length"`. -/
def contentLengthName : Bytes :=
  [0x43, 0x6f, 0x6e, 0x74, 0x65, 0x6e, 0x74, 0x2d, 0x4c, 0x65, 0x6e, 0x67, 0x74, 0x68]

/-- A header without its line end. -/
def field (name value : Bytes) : Bytes := name ++ [0x3a, 0x20] ++ value

/-- The `for` loop over `headers`. -/
def appendHeaders (buf : Buffer UInt8) : List (Bytes × Bytes) → Buffer UInt8
  | [] => buf
  | hd :: hds =>
      appendHeaders ((((buf.append hd.1).append [0x3a, 0x20]).append hd.2).append crlf) hds

/-- The two `encode` functions, behind the formatting of the start line. -/
def encodeWith (m : HttpMsg) (memory line : Bytes) (buf : Buffer UInt8) : Buffer UInt8 × Int :=
  let osz := buf.size
  let buf := appendHeaders (buf.append line) m.headers.toList
  let buf := buf.append (field connection keepAlive ++ crlf)
  let conlen := snprintf 1024 (field contentLengthName (decimal m.getBody.size) ++ crlf)
  let buf := ((buf.append conlen).append crlf).append (m.getBody.read memory)
  (buf, toInt32 (buf.size - osz))

end HttpMsg

/-- `HttpRequest::encode`. -/
def HttpRequest.encode (req : HttpRequest) (memory : Bytes) (buf : Buffer UInt8) :
    Buffer UInt8 × Int :=
  let reqln := snprintf 4096 (cStr req.method ++ [0x20] ++ cStr req.queryUri ++ [0x20] ++
    cStr req.version ++ [0x0a, 0x0a])
  req.toHttpMsg.encodeWith memory reqln buf

/-- `HttpResponse::encode`. -/
def HttpResponse.encode (resp : HttpResponse) (memory : Bytes) (buf : Buffer UInt8) :
    Buffer UInt8 × Int :=
  let statusln := snprintf 1024 (cStr resp.version ++ [0x20] ++ signedDecimal resp.status ++
    [0x20] ++ cStr resp.statusWord ++ crlf)
  resp.toHttpMsg.encodeWith memory statusln buf

/-! ## Numbers -/

theorem digitByte {d : Nat} (h : d < 10) :
    UInt8.ofNat d.digitChar.toNat = UInt8.ofNat (0x30 + d) := by
  have hall : ∀ d : Fin 10, UInt8.ofNat d.val.digitChar.toNat = UInt8.ofNat (0x30 + d.val) := by
    decide
  exact hall ⟨d, h⟩

theorem isdigit_digitByte {d : Nat} (h : d < 10) : isdigit (UInt8.ofNat (0x30 + d)) = true := by
  have hall : ∀ d : Fin 10, isdigit (UInt8.ofNat (0x30 + d.val)) = true := by decide
  exact hall ⟨d, h⟩

theorem decimal_of_lt {n : Nat} (h : n < 10) : decimal n = [UInt8.ofNat (0x30 + n)] := by
  rw [decimal, Nat.toDigits_of_lt_base h, List.map_singleton, digitByte h]

theorem decimal_of_le {n : Nat} (h : 10 ≤ n) :
    decimal n = decimal (n / 10) ++ [UInt8.ofNat (0x30 + n % 10)] := by
  have hd : n % 10 < 10 := Nat.mod_lt n (by omega)
  rw [decimal, Nat.toDigits_of_base_le (by omega) h, List.map_append, List.map_singleton,
    digitByte hd, decimal]

theorem decimal_induction {motive : Nat → Prop} (small : ∀ n < 10, motive n)
    (more : ∀ n, 10 ≤ n → motive (n / 10) → motive n) (n : Nat) : motive n := by
  induction n using Nat.strong_induction_on with
  | h n ih =>
      rcases Nat.lt_or_ge n 10 with h | h
      · exact small n h
      · exact more n h (ih (n / 10) (by omega))

theorem isdigit_decimal (n : Nat) : ∀ c ∈ decimal n, isdigit c = true := by
  induction n using decimal_induction with
  | small n h =>
      rw [decimal_of_lt h]
      simpa using isdigit_digitByte h
  | more n h ih =>
      rw [decimal_of_le h]
      intro c hc
      rcases List.mem_append.mp hc with hc | hc
      · exact ih c hc
      · rw [List.mem_singleton.mp hc]
        exact isdigit_digitByte (Nat.mod_lt n (by omega))

theorem decimal_ne_nil (n : Nat) : decimal n ≠ [] := by
  simp [decimal, Nat.toDigits_ne_nil]

theorem length_decimal_le {n k : Nat} (hk : 0 < k) (h : n < 10 ^ k) : (decimal n).length ≤ k := by
  rw [decimal, List.length_map]
  exact (Nat.length_toDigits_le_iff (by omega) hk).mpr h

/-- A digit read in place. -/
theorem toNat_digitByte {d : Nat} (h : d < 10) : (UInt8.ofNat (0x30 + d)).toNat - 0x30 = d := by
  rw [UInt8.toNat_ofNat']
  omega

theorem foldl_decimal (n : Nat) :
    (decimal n).foldl (fun n c => 10 * n + (c.toNat - 0x30)) 0 = n := by
  induction n using decimal_induction with
  | small n h =>
      rw [decimal_of_lt h, List.foldl_cons, List.foldl_nil, toNat_digitByte h]
      omega
  | more n h ih =>
      rw [decimal_of_le h, List.foldl_append, ih, List.foldl_cons, List.foldl_nil,
        toNat_digitByte (Nat.mod_lt n (by omega))]
      omega

/-- Nothing that begins with `t` goes on with the digits before it. -/
def EndsDigits (t : Bytes) : Prop := ∀ c, t.head? = some c → isdigit c = false

theorem takeWhile_decimal (n : Nat) {t : Bytes} (ht : EndsDigits t) :
    (decimal n ++ t).takeWhile isdigit = decimal n := by
  rw [List.takeWhile_append_of_pos (isdigit_decimal n)]
  cases t with
  | nil => simp
  | cons c t =>
      rw [List.takeWhile_cons, ht c rfl]
      simp

theorem digits_decimal (n : Nat) {t : Bytes} (ht : EndsDigits t) : digits (decimal n ++ t) = n := by
  rw [digits, takeWhile_decimal n ht, foldl_decimal]

theorem isspace_of_isdigit {c : UInt8} (h : isdigit c = true) : isspace c = false := by
  have hrange : 0x30 ≤ c.toNat ∧ c.toNat ≤ 0x39 := by
    simpa [isdigit, UInt8.le_iff_toNat_le] using h
  have hne : c ≠ 0x20 := by
    rintro rfl
    exact absurd hrange.1 (by decide)
  simp only [isspace, Bool.or_eq_false_iff, beq_eq_false_iff_ne, ne_eq, hne, not_false_eq_true,
    Bool.and_eq_false_iff, decide_eq_false_iff_not, UInt8.le_iff_toNat_le, UInt8.reduceToNat, true_and]
  omega

/-- The first byte decides whether `strtol` skips or reads a sign. -/
theorem strtol_unsigned {c : UInt8} (hspace : isspace c = false) (hminus : c ≠ 0x2d)
    (hplus : c ≠ 0x2b) (s : Bytes) :
    strtol (c :: s) = min (2 ^ 63 - 1) (digits (c :: s) : Int) := by
  unfold strtol
  rw [List.dropWhile_cons_of_neg (by simp [hspace])]
  split
  · next h => exact absurd (List.cons.inj h).1 hminus
  · next h => exact absurd (List.cons.inj h).1 hplus
  · rfl

theorem strtol_digit {c : UInt8} (hc : isdigit c = true) (s : Bytes) :
    strtol (c :: s) = min (2 ^ 63 - 1) (digits (c :: s) : Int) := by
  refine strtol_unsigned (isspace_of_isdigit hc) ?_ ?_ s
  · rintro rfl
    exact absurd hc (by decide)
  · rintro rfl
    exact absurd hc (by decide)

theorem atoi_decimal {n : Nat} (hn : n < 2 ^ 31) {t : Bytes} (ht : EndsDigits t) :
    atoi (decimal n ++ t) = n := by
  obtain ⟨c, s, hcons⟩ := List.exists_cons_of_ne_nil (decimal_ne_nil n)
  have hc : isdigit c = true := isdigit_decimal n c (by rw [hcons]; exact List.mem_cons_self)
  have hdigits := digits_decimal n ht
  rw [hcons, List.cons_append] at hdigits ⊢
  rw [atoi, strtol_digit hc, hdigits, Int.min_eq_right (by omega)]
  exact Int.bmod_eq_of_le (by omega) (by omega)

theorem atoi_signedDecimal {v : Int} (hlo : -2 ^ 31 ≤ v) (hhi : v < 2 ^ 31) {t : Bytes}
    (ht : EndsDigits t) : atoi (signedDecimal v ++ t) = v := by
  unfold signedDecimal
  split
  · next hneg =>
      rw [atoi, List.cons_append, strtol, List.dropWhile_cons_of_neg (by decide)]
      simp only [digits_decimal v.natAbs ht]
      rw [Int.max_eq_right (by omega)]
      have habs : -(v.natAbs : Int) = v := by omega
      rw [habs]
      exact Int.bmod_eq_of_le (by omega) (by omega)
  · next hpos =>
      rw [atoi_decimal (by omega) ht]
      omega

/-! ## The bytes of a message -/

namespace HttpMsg

/-- Headers one after the other, each with its line end. -/
def headerText (headers : List (Bytes × Bytes)) : Bytes :=
  headers.flatMap fun hd => field hd.1 hd.2 ++ crlf

/-- The headers of an encoded message with a body of `n` bytes. -/
def sentHeaders (m : HttpMsg) (n : Nat) : List (Bytes × Bytes) :=
  m.headers.toList ++ [(connection, keepAlive), (contentLengthName, decimal n)]

/-- An encoded message behind its start line. -/
def sentText (m : HttpMsg) (body : Bytes) : Bytes :=
  headerText (m.sentHeaders body.length) ++ crlf ++ body

theorem contents_appendHeaders (headers : List (Bytes × Bytes)) (buf : Buffer UInt8) :
    (appendHeaders buf headers).contents = buf.contents ++ headerText headers := by
  induction headers generalizing buf with
  | nil => simp [appendHeaders, headerText]
  | cons hd hds ih => simp [appendHeaders, headerText, field, ih]

/-- The length header of a body that fits in memory is never cut off. -/
theorem snprintf_contentLength {n : Nat} (h : n < 2 ^ 64) :
    snprintf 1024 (field contentLengthName (decimal n) ++ crlf) =
      field contentLengthName (decimal n) ++ crlf := by
  have hlen : (decimal n).length ≤ 20 := length_decimal_le (by omega) (by omega)
  refine List.take_of_length_le ?_
  simp only [field, contentLengthName, crlf, List.length_append, List.length_cons, List.length_nil]
  omega

theorem encodeWith_eq (m : HttpMsg) {memory : Bytes} (line : Bytes) (buf : Buffer UInt8)
    (hlies : m.getBody.Lies memory) (hsize : (m.getBody.read memory).length < 2 ^ 64) :
    let text := line ++ m.sentText (m.getBody.read memory)
    (m.encodeWith memory line buf).1.contents = buf.contents ++ text ∧
      (m.encodeWith memory line buf).2 = toInt32 text.length := by
  intro text
  have hcontents : (m.encodeWith memory line buf).1.contents = buf.contents ++ text := by
    simp only [encodeWith, Buffer.contents_append, contents_appendHeaders, Body.size_eq hlies hsize,
      snprintf_contentLength hsize]
    simp [text, sentText, sentHeaders, headerText]
  refine ⟨hcontents, ?_⟩
  have hlen := congrArg List.length hcontents
  rw [List.length_append, Buffer.contents_length, Buffer.contents_length] at hlen
  have hret : (m.encodeWith memory line buf).2 =
      toInt32 ((m.encodeWith memory line buf).1.size - buf.size) := rfl
  rw [hret, hlen, Nat.add_sub_cancel_left]

end HttpMsg

end Handy
