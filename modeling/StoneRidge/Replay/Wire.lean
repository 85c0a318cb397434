import StoneRidge.Kit.Hex
import StoneRidge.Replay.Edit

/-!
# Chunks on the wire

The body that `send_archived_http_response` writes (`httpproxy.py:69-118`), and
`readChunks`, by which a body was recorded (`httpclient.py:92-147`).
-/

set_option autoImplicit false

namespace StoneRidge.Replay
open StoneRidge.Kit StoneRidge.Kit.Hex

/-! ### Writing -/

def crlf : Text := ['\r', '\n']

/-- `'%x\r\n%s\r\n' % (len(chunk), chunk)`. -/
def chunkText (chunk : Text) : Text := Nat.toDigits 16 chunk.length ++ (crlf ++ (chunk ++ crlf))

/-- The chunks that have a delay, and the last, empty one. -/
def sentBody {τ : Type} (r : ArchivedHttpResponse τ) : Text :=
  let chunks := (r.responseData.zip r.delays.data).map Prod.fst
  if r.isChunked then chunks.flatMap chunkText ++ ('0' :: (crlf ++ crlf)) else chunks.flatten

/-! ### Reading -/

/-- A line with its line break, and what follows. -/
def readline (stream : Text) : Text × Text :=
  match stream.dropWhile (· ≠ '\n') with
  | [] => (stream, [])
  | _ :: rest => (stream.takeWhile (· ≠ '\n') ++ ['\n'], rest)

/-- Nothing where the function returns `None`, and for a line with chunk extensions, where the
name `extention_pos` is not bound. -/
def readChunkSize (line : Text) : Option ℤ := if ';' ∈ line then none else int16? line

/-- `_safe_read`; nothing where it raises `IncompleteRead`. -/
def safeRead (amt : ℤ) (stream : Text) : Option (Text × Text) :=
  if (stream.length : ℤ) < amt then none
  else some (stream.take amt.toNat, stream.drop amt.toNat)

/-- The loop of `readChunks` on a chunked body. Each round takes a character at least, so more
rounds than characters are enough. -/
def readChunksFrom : ℕ → Text → Option (List Text)
  | 0, _ => none
  | rounds + 1, stream => do
    let (line, stream) := readline stream
    let chunkSize ← readChunkSize line
    if chunkSize = 0 then return []
    else
      let (chunk, stream) ← safeRead chunkSize stream
      let (_, stream) ← safeRead 2 stream
      let chunks ← readChunksFrom rounds stream
      return chunk :: chunks

/-- Nothing where it raises; what follows the last chunk is ignored. -/
def readChunks (stream : Text) : Option (List Text) := readChunksFrom (stream.length + 1) stream

/-! ### Reading what was written -/

section Read
variable {rounds : ℕ} {stream rest : Text}

theorem readline_line {line : Text} (h : '\n' ∉ line) :
    readline (line ++ '\n' :: rest) = (line ++ ['\n'], rest) := by
  have hall : ∀ c ∈ line, decide (c ≠ '\n') = true := by
    intro c hc
    rw [decide_eq_true_iff]
    rintro rfl
    exact h hc
  have hdrop : (line ++ '\n' :: rest).dropWhile (· ≠ '\n') = '\n' :: rest := by
    rw [List.dropWhile_append_of_pos hall]
    rfl
  have htake : (line ++ '\n' :: rest).takeWhile (· ≠ '\n') = line := by
    rw [List.takeWhile_append_of_pos hall]
    simp
  unfold readline
  rw [hdrop, htake]

theorem readChunkSize_toDigits (n : ℕ) :
    readChunkSize (Nat.toDigits 16 n ++ crlf) = some (n : ℤ) := by
  have hnot : ';' ∉ Nat.toDigits 16 n ++ crlf := by
    intro hmem
    rcases List.mem_append.mp hmem with hdigit | hend
    · exact (digit_plain hdigit).2.2.2.2.2.1 rfl
    · revert hend
      decide
  unfold readChunkSize
  rw [if_neg hnot]
  exact int16?_toDigits n (by decide)

theorem readline_size (n : ℕ) :
    readline (Nat.toDigits 16 n ++ (crlf ++ rest)) = (Nat.toDigits 16 n ++ crlf, rest) := by
  have hnot : '\n' ∉ Nat.toDigits 16 n ++ ['\r'] := by
    intro hmem
    rcases List.mem_append.mp hmem with hdigit | hend
    · exact (digit_plain hdigit).2.2.2.2.2.2 rfl
    · revert hend
      decide
  have hline : readline (Nat.toDigits 16 n ++ ['\r'] ++ '\n' :: rest) =
      (Nat.toDigits 16 n ++ ['\r'] ++ ['\n'], rest) := readline_line hnot
  rw [List.append_assoc, List.append_assoc] at hline
  exact hline

theorem safeRead_append (chunk : Text) :
    safeRead (chunk.length : ℤ) (chunk ++ rest) = some (chunk, rest) := by
  have hlong : ¬ ((chunk ++ rest).length : ℤ) < (chunk.length : ℤ) := by
    rw [List.length_append]
    omega
  unfold safeRead
  rw [if_neg hlong, Int.toNat_natCast, List.take_left, List.drop_left]

/-- An empty chunk ends the body. -/
theorem readChunksFrom_nil : readChunksFrom (rounds + 1) (chunkText [] ++ stream) = some [] := by
  have hsplit : chunkText [] ++ stream = Nat.toDigits 16 0 ++ (crlf ++ (crlf ++ stream)) := by
    simp [chunkText]
  rw [hsplit, readChunksFrom, readline_size]
  simp only [readChunkSize_toDigits]
  rfl

theorem readChunksFrom_cons {chunk : Text} (hchunk : chunk ≠ []) :
    readChunksFrom (rounds + 1) (chunkText chunk ++ stream) =
      (readChunksFrom rounds stream).map (chunk :: ·) := by
  have hsplit : chunkText chunk ++ stream =
      Nat.toDigits 16 chunk.length ++ (crlf ++ (chunk ++ (crlf ++ stream))) := by
    simp [chunkText]
  have hsize : ¬ (chunk.length : ℤ) = 0 := by
    have hpos := List.length_pos_iff.mpr hchunk
    omega
  have hcrlf : safeRead 2 (crlf ++ stream) = some (crlf, stream) := safeRead_append crlf
  rw [hsplit, readChunksFrom, readline_size]
  simp only [readChunkSize_toDigits, Option.bind_eq_bind, Option.bind_some, if_neg hsize,
    safeRead_append, hcrlf]
  cases readChunksFrom rounds stream <;> rfl

/-- What comes after the chunks that were written is not reached by the reader. -/
theorem readChunksFrom_chunks {chunks : List Text} (hrounds : chunks.length < rounds) :
    readChunksFrom rounds (chunks.flatMap chunkText ++ ('0' :: (crlf ++ crlf) ++ rest)) =
      some (chunks.takeWhile (· ≠ [])) := by
  induction chunks generalizing rounds with
  | nil =>
    obtain ⟨rounds, rfl⟩ := Nat.exists_eq_succ_of_ne_zero (Nat.ne_of_gt hrounds)
    exact readChunksFrom_nil
  | cons chunk chunks ih =>
    rw [List.length_cons] at hrounds
    obtain ⟨rounds, rfl⟩ := Nat.exists_eq_succ_of_ne_zero (n := rounds) (by omega)
    rw [List.flatMap_cons, List.append_assoc]
    by_cases hchunk : chunk = []
    · rw [hchunk, readChunksFrom_nil]
      simp
    · rw [readChunksFrom_cons hchunk, ih (by omega), List.takeWhile_cons_of_pos (by simpa using hchunk)]
      rfl

end Read

theorem length_chunkText (chunk : Text) : 0 < (chunkText chunk).length := by
  simp [chunkText, crlf]

theorem length_le_flatMap (chunks : List Text) :
    chunks.length ≤ (chunks.flatMap chunkText).length := by
  induction chunks with
  | nil => simp
  | cons chunk chunks ih =>
    have hpos := length_chunkText chunk
    rw [List.flatMap_cons, List.length_append, List.length_cons]
    omega

theorem map_fst_zip_take {α β : Type} (l : List α) (m : List β) :
    (l.zip m).map Prod.fst = l.take m.length := by
  induction l generalizing m with
  | nil => simp
  | cons a l ih =>
    cases m with
    | nil => rfl
    | cons b m =>
      rw [List.zip_cons_cons, List.map_cons, ih, List.length_cons, List.take_succ_cons]

/-- A reader gets the chunks that have a delay, up to the first empty one. -/
theorem read_sentBody {τ : Type} {r : ArchivedHttpResponse τ} (hchunked : r.isChunked = true)
    (rest : Text) : readChunks (sentBody r ++ rest) =
      some ((r.responseData.take r.delays.data.length).takeWhile (· ≠ [])) := by
  have htake : (r.responseData.zip r.delays.data).map Prod.fst =
      r.responseData.take r.delays.data.length := map_fst_zip_take _ _
  have hlong := length_le_flatMap (r.responseData.take r.delays.data.length)
  unfold sentBody
  dsimp only
  rw [if_pos hchunked, htake, readChunks, List.append_assoc]
  refine readChunksFrom_chunks ?_
  rw [List.length_append]
  omega

/-- The chunks that were recorded are read again exactly if each has its delay and none is
empty. -/
theorem read_sentBody_iff {τ : Type} {r : ArchivedHttpResponse τ} (hchunked : r.isChunked = true)
    (rest : Text) : readChunks (sentBody r ++ rest) = some r.responseData ↔
      r.responseData.length ≤ r.delays.data.length ∧ ∀ chunk ∈ r.responseData, chunk ≠ [] := by
  rw [read_sentBody hchunked, Option.some.injEq]
  constructor
  · intro h
    have hprefix : (r.responseData.take r.delays.data.length).takeWhile (· ≠ []) <+:
        r.responseData.take r.delays.data.length := List.takeWhile_prefix _
    have hlen := hprefix.length_le
    rw [h, List.length_take] at hlen
    refine ⟨by omega, ?_⟩
    intro chunk hmem
    rw [← h] at hmem
    have hchunk := List.mem_takeWhile_imp hmem
    exact of_decide_eq_true hchunk
  · rintro ⟨hlen, hchunks⟩
    rw [List.take_of_length_le hlen, List.takeWhile_eq_self_iff]
    intro chunk hmem
    exact decide_eq_true (hchunks chunk hmem)

/-- A chunked body with an empty chunk, as an edit can leave it. -/
def sampleChunked : ArchivedHttpResponse ℕ :=
  ⟨11, 200, "OK".toList, [("transfer-encoding".toList, "chunked".toList)],
    ["a".toList, [], "b".toList], ⟨0, [0, 0, 0]⟩⟩

theorem sampleChunked_read :
    readChunks (sentBody sampleChunked ++ []) = some sampleChunked.responseData ↔
      sampleChunked.responseData.length ≤ sampleChunked.delays.data.length ∧
        ∀ chunk ∈ sampleChunked.responseData, chunk ≠ [] :=
  read_sentBody_iff (by decide) []

end StoneRidge.Replay
