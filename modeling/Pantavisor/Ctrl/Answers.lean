/-
Pantavisor.Ctrl.Answers — what the daemon writes to the socket of a request (`ctrl.c`).

An error is answered with a JSON body behind a header that has its length. The text is two
bytes longer than the block it is printed into has room for, since the line break behind the
body is not counted: what is sent ends with a zero byte instead. A client that goes by the
length gets the whole body (`readResponse_error`).
-/
import Pantavisor.Listing.Builder

namespace Pantavisor.Ctrl

open Pantavisor.Lib Pantavisor.Listing

/-! ## The code -/

/-- `pv_http_status_code_t` -/
inductive HttpStatus where
  | badReq
  | notFound
  | conflict
  | error
  deriving DecidableEq, Repr

/-- `pv_ctrl_string_http_status_code` -/
def pvCtrlStringHttpStatusCode : HttpStatus → CStr
  | .badReq => str "400 Bad Request"
  | .notFound => str "404 Not Found"
  | .conflict => str "409 Conflict"
  | .error => str "500 Internal Server Error"

def crlf : CStr := [13, 10]

/-- The line of `HTTP_RESPONSE` with the type of the content -/
def contentTypeLine : CStr := str "Content-Type: application/json; charset=utf-8"

def contentLengthKey : CStr := str "Content-Length: "

/-- The JSON of an error -/
def errorBody (message : CStr) : CStr :=
  str "\x7b\"Error\":\"" ++ message ++ str "\"\x7d"

/-- `HTTP_RESPONSE` -/
def httpResponse (code : CStr) (contentLen : Nat) (message : CStr) : CStr :=
  str "HTTP/1.1 " ++ code ++ str " " ++ crlf ++
    (contentLengthKey ++ intText contentLen ++ crlf ++
      (contentTypeLine ++ crlf ++ (crlf ++ (errorBody message ++ crlf))))

def httpReqBufferSize : Nat := 4096

/-- `pv_ctrl_write_response`, for a message without zero bytes: the bytes that are written.
`snprintf` keeps a byte of the block for the terminator. -/
def pvCtrlWriteResponse (code : HttpStatus) (message : CStr) : CStr :=
  let contentLen := 12 + message.length
  let responseLen := 91 + (pvCtrlStringHttpStatusCode code).length + getDigitCount contentLen
    + message.length
  if httpReqBufferSize < responseLen then []
  else
    let text := (httpResponse (pvCtrlStringHttpStatusCode code) contentLen message).take
      (responseLen - 1)
    text ++ List.replicate (responseLen - text.length) 0

/-! ## A client -/

/-- The lines of a header up to the empty one, and what is behind that. -/
def readLines : Nat → CStr → Option (List CStr × CStr)
  | 0, _ => none
  | fuel + 1, s =>
    let line := s.takeWhile (· ≠ 13)
    let rest := (s.dropWhile (· ≠ 13)).drop 2
    if line = [] then some ([], rest)
    else (readLines fuel rest).map fun (lines, rest) => (line :: lines, rest)

/-- A response as a client reads it: the status line, the body by its length, and what is left. -/
def readResponse (s : CStr) : Option (CStr × CStr × CStr) := do
  let (lines, rest) ← readLines (s.length + 1) s
  let status ← lines.head?
  let length ← lines.find? (contentLengthKey.isPrefixOf ·)
  let n := digitsValue (length.drop contentLengthKey.length)
  if rest.length < n then none
  else some (status, rest.take n, rest.drop n)

/-! ## The whole body arrives -/

theorem readLines_cons {line rest : CStr} (hne : line ≠ []) (hline : (13 : UInt8) ∉ line)
    (fuel : Nat) : readLines (fuel + 1) (line ++ crlf ++ rest)
      = (readLines fuel rest).map fun (lines, rest) => (line :: lines, rest) := by
  have hall : ∀ c ∈ line, decide (c ≠ 13) = true := fun c hc =>
    decide_eq_true fun h => hline (h ▸ hc)
  have htake : (line ++ crlf ++ rest).takeWhile (· ≠ 13) = line := by
    rw [List.append_assoc, List.takeWhile_append_of_pos hall]
    simp [crlf]
  have hdrop : (line ++ crlf ++ rest).dropWhile (· ≠ 13) = crlf ++ rest := by
    rw [List.append_assoc, List.dropWhile_append_of_pos hall]
    simp [crlf]
  rw [readLines, htake, hdrop]
  simp [hne, crlf]

theorem readLines_nil (rest : CStr) (fuel : Nat) :
    readLines (fuel + 1) (crlf ++ rest) = some ([], rest) := by
  simp [readLines, crlf]

theorem length_httpResponse (code : CStr) (n : Nat) (message : CStr) :
    (httpResponse code n message).length
      = 93 + code.length + (intText n).length + message.length := by
  simp only [httpResponse, errorBody, contentLengthKey, contentTypeLine, crlf, List.length_append]
  have h₁ : (str "HTTP/1.1 ").length = 9 := by decide
  have h₂ : (str " ").length = 1 := by decide
  have h₃ : (str "Content-Length: ").length = 16 := by decide
  have h₄ : (str "Content-Type: application/json; charset=utf-8").length = 45 := by decide
  have h₅ : (str "\x7b\"Error\":\"").length = 10 := by decide
  have h₆ : (str "\"\x7d").length = 2 := by decide
  simp only [h₁, h₂, h₃, h₄, h₅, h₆, List.length_cons, List.length_nil]
  omega

/-- What a client gets: the text of a response but for the line break behind its body. -/
def sentResponse (code message : CStr) : CStr :=
  str "HTTP/1.1 " ++ code ++ str " " ++ crlf ++
    (contentLengthKey ++ intText (errorBody message).length ++ crlf ++
      (contentTypeLine ++ crlf ++ (crlf ++ (errorBody message ++ [0]))))

theorem length_errorBody (message : CStr) : (errorBody message).length = 12 + message.length := by
  have h₁ : (str "\x7b\"Error\":\"").length = 10 := by decide
  have h₂ : (str "\"\x7d").length = 2 := by decide
  rw [errorBody, List.length_append, List.length_append, h₁, h₂]
  omega

/-- The block has room for all but the line break, and ends with a zero byte. -/
theorem pvCtrlWriteResponse_eq (code : HttpStatus) {message : CStr}
    (hsent : pvCtrlWriteResponse code message ≠ []) :
    pvCtrlWriteResponse code message = sentResponse (pvCtrlStringHttpStatusCode code) message := by
  have hcount := getDigitCount_eq (n := ((12 + message.length : Nat) : Int)) (by omega)
  rw [if_neg (by omega), Nat.add_zero] at hcount
  have hlength := length_httpResponse (pvCtrlStringHttpStatusCode code) (12 + message.length) message
  rw [pvCtrlWriteResponse] at hsent ⊢
  split at hsent
  · exact absurd rfl hsent
  · rename_i hfits
    rw [if_neg hfits]
    have hsplit : httpResponse (pvCtrlStringHttpStatusCode code) (12 + message.length) message
        = (str "HTTP/1.1 " ++ pvCtrlStringHttpStatusCode code ++ str " " ++ crlf ++
          (contentLengthKey ++ intText (12 + message.length : Nat) ++ crlf ++
            (contentTypeLine ++ crlf ++ (crlf ++ errorBody message)))) ++ crlf := by
      simp [httpResponse]
    rw [hcount]
    generalize httpResponse (pvCtrlStringHttpStatusCode code) (12 + message.length) message = text
      at hlength hsplit
    generalize hbefore : str "HTTP/1.1 " ++ pvCtrlStringHttpStatusCode code ++ str " " ++ crlf ++
      (contentLengthKey ++ intText (12 + message.length : Nat) ++ crlf ++
        (contentTypeLine ++ crlf ++ (crlf ++ errorBody message))) = before at hsplit
    have hlen : text.length = before.length + 2 := by
      rw [hsplit, List.length_append]
      rfl
    have htake : text.take (91 + (pvCtrlStringHttpStatusCode code).length +
        ((intText (12 + message.length : Nat)).length + 1) + message.length - 1) = before := by
      rw [hsplit]
      exact List.take_left' (by omega)
    simp only [htake]
    rw [show 91 + (pvCtrlStringHttpStatusCode code).length +
      ((intText (12 + message.length : Nat)).length + 1) + message.length - before.length = 1
      by omega, ← hbefore, sentResponse, length_errorBody]
    simp

/-- **The whole body arrives**: a client reads the status and the JSON of the error, and a zero
byte is left. -/
theorem readResponse_error (code : HttpStatus) (message : CStr)
    (hsent : pvCtrlWriteResponse code message ≠ []) :
    readResponse (pvCtrlWriteResponse code message)
      = some (str "HTTP/1.1 " ++ pvCtrlStringHttpStatusCode code ++ str " ", errorBody message,
          [0]) := by
  rw [pvCtrlWriteResponse_eq code hsent]
  have hstatus : (13 : UInt8) ∉ str "HTTP/1.1 " ++ pvCtrlStringHttpStatusCode code ++ str " " := by
    cases code <;> decide
  have hlengthLine : (13 : UInt8) ∉ contentLengthKey ++ intText (errorBody message).length := by
    rw [List.mem_append, not_or]
    refine ⟨by decide, fun h => ?_⟩
    exact absurd (isDigit_of_mem_digitText h) (by decide)
  have hfuel : ∃ fuel, (sentResponse (pvCtrlStringHttpStatusCode code) message).length + 1
      = fuel + 1 + 1 + 1 + 1 := by
    refine ⟨(sentResponse (pvCtrlStringHttpStatusCode code) message).length - 3, ?_⟩
    have hlong : 4 ≤ (sentResponse (pvCtrlStringHttpStatusCode code) message).length := by
      rw [sentResponse, List.length_append, List.length_append, List.length_append,
        List.length_append, show (str "HTTP/1.1 ").length = 9 by decide]
      omega
    omega
  obtain ⟨fuel, hfuel⟩ := hfuel
  have hlines : readLines ((sentResponse (pvCtrlStringHttpStatusCode code) message).length + 1)
      (sentResponse (pvCtrlStringHttpStatusCode code) message)
      = some ([str "HTTP/1.1 " ++ pvCtrlStringHttpStatusCode code ++ str " ",
          contentLengthKey ++ intText (errorBody message).length, contentTypeLine],
        errorBody message ++ [0]) := by
    rw [hfuel, sentResponse, readLines_cons (by simp [str]) hstatus,
      readLines_cons (by simp [contentLengthKey, str]) hlengthLine,
      readLines_cons (by decide) (by decide), readLines_nil]
    rfl
  have hfirst : contentLengthKey.isPrefixOf
      (str "HTTP/1.1 " ++ pvCtrlStringHttpStatusCode code ++ str " ") = false := by
    cases code <;> decide
  have hsecond : contentLengthKey.isPrefixOf
      (contentLengthKey ++ intText (errorBody message).length) = true :=
    List.isPrefixOf_iff_prefix.mpr (List.prefix_append _ _)
  have hnil : ∀ c, ([] : CStr).head? = some c → isDigit c = false := by simp
  have hvalue : digitsValue (intText (errorBody message).length) = (errorBody message).length := by
    have h := digitsValue_digitText (n := (errorBody message).length) hnil
    rwa [List.append_nil] at h
  rw [readResponse, hlines]
  simp only [Option.bind_eq_bind, Option.bind_some, List.head?_cons, List.find?_cons, hfirst,
    hsecond, List.drop_left, hvalue]
  rw [if_neg (by simp), List.take_left]

/-- A message of a line or so always has room. -/
theorem pvCtrlWriteResponse_short (code : HttpStatus) {message : CStr} (h : message.length ≤ 64) :
    pvCtrlWriteResponse code message ≠ [] := by
  have hcode : (pvCtrlStringHttpStatusCode code).length ≤ 25 := by
    cases code <;> decide
  have hcount : ∀ n < 65, getDigitCount ((12 + n : Nat) : Int) ≤ 4 := by decide +kernel
  have hdigits := hcount message.length (by omega)
  unfold pvCtrlWriteResponse
  dsimp only
  rw [if_neg (by rw [httpReqBufferSize]; omega)]
  intro hnil
  have hlength := congrArg List.length hnil
  rw [List.length_append, List.length_take, List.length_replicate, List.length_nil] at hlength
  omega

end Pantavisor.Ctrl
