import Modbit.Lib.Cuts
import Modbit.Lib.Json
import Modbit.Lib.Labels
import Modbit.Lib.Output
import Modbit.Lib.Run
import Modbit.Lib.Utf8Loss
import Modbit.Retrieval.Walker

/-!
# A session with a language server

`crates/diagnostics/src/lsp.rs`: messages are framed by a `Content-Length`, files are opened
once, and a request waits for the message with its number.  `serde_json::from_slice` is any
partial function, and `polls` says how many messages come before the deadline of a call.

`session_lawful_iff` says when a request is about the text that was opened last, and which paths
come back as they were.  Every answer is to its own request (`Served.ownAnswer`), and every
message is read back (`readMessage_encode`).
-/

namespace Modbit

open Lib Retrieval List

namespace Lsp

/-! ### Messages -/

inductive LspError where
  | io (e : String)
  | timeout (method : String) (timeoutMs : Nat)
  | server (method message : String)
  | closed (method : String)
  deriving DecidableEq

def encodeMessage (body : List Char) : List UInt8 :=
  Utf8.encode ("Content-Length: ".toList ++ Nat.toDigits 10 (Utf8.encode body).length
    ++ "\r\n\r\n".toList ++ body)

/-- The value of a `Content-Length` header. -/
def contentLength (trimmed : List Char) : Option Nat :=
  match Text.splitOnce ':' trimmed with
  | some (k, v) =>
    if k.map Char.toLower = "content-length".toList then Text.parseUsize (Text.trimChars v) else none
  | none => none

inductive Headers where
  | eof
  | invalid (rest : List UInt8)
  | ended (contentLength : Option Nat) (rest : List UInt8)

/-- The loop over the lines, up to the first that is empty. -/
def readHeaders : Nat → Option Nat → List UInt8 → Headers
  | 0, _, _ => .eof
  | fuel + 1, len, s =>
    if s = [] then .eof
    else
      let n := s.findIdx (· == 0x0A) + 1
      match Utf8.decode (s.take n) with
      | none => .invalid (s.drop n)
      | some line =>
        let trimmed := Text.dropEndWhile Text.isWhitespace line
        if trimmed = [] then .ended len (s.drop n)
        else readHeaders fuel ((contentLength trimmed).or len) (s.drop n)

/-- The next message of the stream, or none at its end. -/
def readMessage (s : List UInt8) : List UInt8 × Except LspError (Option (List UInt8)) :=
  match readHeaders (s.length + 1) none s with
  | .eof => ([], .ok none)
  | .invalid rest => (rest, .error (.io "stream did not contain valid UTF-8"))
  | .ended none rest => (rest, .error (.io "missing Content-Length"))
  | .ended (some len) rest =>
    if rest.length < len then ([], .error (.io "failed to fill whole buffer"))
    else (rest.drop len, .ok (some (rest.take len)))

/-! ### Paths -/

def rootText (root : FilePath) : List Char := '/' :: (relText root).toList

/-- `root.join(rel_path)`. -/
def join (root : FilePath) (relPath : List Char) : List Char :=
  if relPath.head? = some '/' then relPath
  else if root = [] then '/' :: relPath
  else rootText root ++ '/' :: relPath

/-- `replace(' ', "%20")`. -/
def escape (l : List Char) : List Char := l.flatMap (fun c => if c = ' ' then "%20".toList else [c])

/-- `replace("%20", " ")`. -/
def unescape (l : List Char) : List Char := [' '].intercalate (cuts "%20".toList 0 l)

/-- `replace('\\', "/")`. -/
def slashes (l : List Char) : List Char := l.map (fun c => if c = '\\' then '/' else c)

def pathToUri (path : List Char) : List Char :=
  let text := escape path
  if "file://".toList <+: text then text else "file://".toList ++ text

def uriToPath (uri : List Char) : List Char :=
  slashes (unescape ((uri.dropPrefix? "file://".toList).getD uri))

def Blank (segment : List Char) : Prop := segment = [] ∨ segment = ['.']

instance (segment : List Char) : Decidable (Blank segment) := inferInstanceAs (Decidable (_ ∨ _))

/-- What is left of the segments of a path behind those of the root. -/
def stripRoot : List (List Char) → FilePath → Option (List (List Char))
  | [], root => if root = [] then some [] else none
  | segment :: segments, [] =>
    if Blank segment then stripRoot segments [] else some (segment :: segments)
  | segment :: segments, name :: root =>
    if Blank segment then stripRoot segments (name :: root)
    else if segment = name.toList then stripRoot segments root
    else none

/-- `Path::new(path).strip_prefix(worktree)`. -/
def stripPrefix (worktree : FilePath) (path : List Char) : Option (List Char) :=
  if path.head? = some '/' then
    (stripRoot (path.splitOn '/') worktree).map (fun segments => ['/'].intercalate
      (segments.reverse.dropWhile (fun segment => decide (Blank segment))).reverse)
  else none

structure SymbolLocation where
  path : List Char
  line : Nat
  deriving DecidableEq

/-- `Value::as_u64`. -/
def asU64 (j : Json) : Option Nat := j.asNat.filter (fun n => n < 2 ^ 64)

def normalizeLocation (loc : Json) (worktree : FilePath) : Option SymbolLocation := do
  let uri ← (loc.field "uri").bind Json.asStr
  let line ← (((loc.field "range").bind (Json.field "start")).bind (Json.field "line")).bind asU64
  let path := uriToPath uri.toList
  return ⟨((stripPrefix worktree path).map slashes).getD path, (line + 1) % 2 ^ 64⟩

def normalizeResult (root : FilePath) (result : Json) : List SymbolLocation :=
  let items := match result with
    | .arr items => items
    | one => if (one.field "uri").isSome then [one] else []
  items.filterMap (fun loc => normalizeLocation loc root)

/-! ### The session -/

inductive Sent where
  | didOpen (uri text : List Char)
  | request (id : Nat) (method : String) (uri : List Char) (line character : Nat)
      (includeDeclaration : Option Bool)

/-- A session after its handshake, with what was sent to the server and what it will send. -/
structure LspSession where
  root : FilePath
  requestTimeout : Nat
  nextId : Nat
  opened : List (List Char)
  sent : List Sent
  incoming : List UInt8

/-- `spawn`; the handshake was number 1. -/
def spawn (root : FilePath) (requestTimeout : Nat) (incoming : List UInt8) : LspSession :=
  ⟨root, requestTimeout, 2, [], [], incoming⟩

def Responds (msg : Json) (id : Nat) : Prop :=
  (msg.field "id").bind Json.asStr = some (toString id) ∨ (msg.field "id").bind Json.asNat = some id

instance (msg : Json) (id : Nat) : Decidable (Responds msg id) :=
  inferInstanceAs (Decidable (_ ∨ _))

section Session

variable (parse : List UInt8 → Option Json)

/-- Messages are read until the one with the number comes. -/
def readResponse (method : String) (timeoutMs id : Nat) : Nat → List UInt8 →
    List UInt8 × Except LspError (Option Json)
  | 0, s => (s, .error (.timeout method timeoutMs))
  | polls + 1, s =>
    match readMessage s with
    | (s, .error e) => (s, .error e)
    | (s, .ok none) => (s, .ok none)
    | (s, .ok (some body)) =>
      match parse body with
      | none => readResponse method timeoutMs id polls s
      | some msg =>
        if (msg.field "method").isSome then readResponse method timeoutMs id polls s
        else if Responds msg id then
          match msg.field "error" with
          | some err => (s, .error (.server method
              (((err.field "message").bind Json.asStr).getD "unknown")))
          | none => (s, .ok (some msg))
        else readResponse method timeoutMs id polls s

namespace LspSession

variable (s : LspSession)

def uri (relPath : List Char) : List Char := pathToUri (join s.root relPath)

def ensureOpen (relPath : List Char) (bytes : List UInt8) : LspSession :=
  if s.uri relPath ∈ s.opened then s
  else { s with
    sent := s.sent ++ [.didOpen (s.uri relPath) (Utf8.lossy bytes)]
    opened := s.opened ++ [s.uri relPath] }

def requestPosition (method : String) (relPath : List Char) (line character : Nat)
    (includeDeclaration : Option Bool) (polls : Nat) : LspSession × Except LspError Json :=
  let id := s.nextId
  let read := readResponse parse method s.requestTimeout id polls s.incoming
  ({ s with
      nextId := s.nextId + 1
      sent := s.sent ++ [.request id method (s.uri relPath) line character includeDeclaration]
      incoming := read.1 },
    match read.2 with
    | .error e => .error e
    | .ok none => .error (.closed method)
    | .ok (some msg) => .ok ((msg.field "result").getD .null))

end LspSession

inductive Call where
  | ensureOpen (relPath : List Char) (bytes : List UInt8)
  | definition (relPath : List Char) (line character polls : Nat)
  | references (relPath : List Char) (line character : Nat) (includeDeclaration : Bool)
      (polls : Nat)

def step (s : LspSession) : Call → LspSession × Except LspError (List SymbolLocation)
  | .ensureOpen relPath bytes => (s.ensureOpen relPath bytes, .ok [])
  | .definition relPath line character polls =>
    let (s', result) := s.requestPosition parse "textDocument/definition" relPath line character
      none polls
    (s', result.map (normalizeResult s.root))
  | .references relPath line character includeDeclaration polls =>
    let (s', result) := s.requestPosition parse "textDocument/references" relPath line character
      (some includeDeclaration) polls
    (s', result.map (normalizeResult s.root))

end Session

/-! ### Framing -/

theorem readHeaders_line {line : List Char} (hline : '\n' ∉ line) (fuel : Nat) (len : Option Nat)
    (rest : List UInt8) : readHeaders (fuel + 1) len (Utf8.encode (line ++ ['\n']) ++ rest) =
      if Text.dropEndWhile Text.isWhitespace (line ++ ['\n']) = [] then .ended len rest
      else readHeaders fuel
        ((contentLength (Text.dropEndWhile Text.isWhitespace (line ++ ['\n']))).or len) rest := by
  have hbytes : Utf8.encode (line ++ ['\n']) = Utf8.encode line ++ [0x0A] :=
    Utf8.encode_append line ['\n']
  have hfirst : (Utf8.encode (line ++ ['\n']) ++ rest).findIdx (· == 0x0A) + 1 =
      (Utf8.encode (line ++ ['\n'])).length := by
    have hnone : (Utf8.encode line).findIdx (· == 0x0A) = (Utf8.encode line).length := by
      refine findIdx_eq_length_of_false (fun b hb => ?_)
      exact beq_eq_false_iff_ne.mpr (fun heq => Utf8.newline_not_mem_encode hline (heq ▸ hb))
    rw [hbytes, append_assoc, findIdx_append, hnone, if_neg (lt_irrefl _), length_append]
    have hhead : ([0x0A] ++ rest : List UInt8).findIdx (· == 0x0A) = 0 := rfl
    rw [hhead, Nat.zero_add]
    rfl
  have hne : Utf8.encode (line ++ ['\n']) ++ rest ≠ [] := by
    rw [hbytes]
    exact append_ne_nil_of_left_ne_nil
      (append_ne_nil_of_right_ne_nil _ (cons_ne_nil _ _)) _
  rw [readHeaders, if_neg hne]
  dsimp only
  rw [hfirst, take_left, drop_left, Utf8.decode_encode]

theorem digits_solid (n : Nat) : ∀ c ∈ Nat.toDigits 10 n, Text.isWhitespace c = false := by
  intro c hc
  have hdigit := Nat.isDigit_of_mem_toDigits (by decide) (by decide) hc
  by_contra hspace
  rw [Bool.not_eq_false] at hspace
  rw [Char.isDigit, Bool.and_eq_true] at hdigit
  have hlow : 0x30 ≤ c.toNat := of_decide_eq_true hdigit.1
  have hhigh : c.toNat ≤ 0x39 := of_decide_eq_true hdigit.2
  rw [Text.isWhitespace] at hspace
  simp only [Bool.or_eq_true, Bool.and_eq_true, decide_eq_true_eq, beq_iff_eq] at hspace
  omega

theorem dropEndWhile_digits (a : List Char) (n : Nat) (b : List Char)
    (hb : ∀ c ∈ b, Text.isWhitespace c = true) :
    Text.dropEndWhile Text.isWhitespace (a ++ Nat.toDigits 10 n ++ b) = a ++ Nat.toDigits 10 n := by
  have hlast : ∀ c ∈ (a ++ Nat.toDigits 10 n).getLast?, Text.isWhitespace c = false := by
    intro c hc
    rw [getLast?_append_of_ne_nil _ Nat.toDigits_ne_nil] at hc
    exact digits_solid n c (mem_of_getLast? hc)
  have hdrop : (b.reverse ++ (a ++ Nat.toDigits 10 n).reverse).dropWhile Text.isWhitespace =
      (a ++ Nat.toDigits 10 n).reverse.dropWhile Text.isWhitespace :=
    dropWhile_append_of_pos (fun c hc => hb c (mem_reverse.mp hc))
  rw [Text.dropEndWhile, reverse_append, hdrop]
  exact Output.dropEndWhile_eq_self_iff.mpr hlast

theorem contentLength_header {n : Nat} (h : n < 2 ^ 64) :
    contentLength ("Content-Length: ".toList ++ Nat.toDigits 10 n) = some n := by
  have hsplit : Text.splitOnce ':' ("Content-Length: ".toList ++ Nat.toDigits 10 n) =
      some ("Content-Length".toList, ' ' :: Nat.toDigits 10 n) := by
    have hname : "Content-Length: ".toList = "Content-Length".toList ++ [':', ' '] := by
      decide +kernel
    rw [hname, append_assoc]
    exact Text.splitOnce_append "Content-Length".toList (' ' :: Nat.toDigits 10 n) (by decide)
  have htrim : Text.trimChars (' ' :: Nat.toDigits 10 n) = Nat.toDigits 10 n := by
    have hfront : (' ' :: Nat.toDigits 10 n).dropWhile Text.isWhitespace = Nat.toDigits 10 n := by
      rw [dropWhile_cons_of_pos rfl]
      exact dropWhile_eq_self_iff.mpr
        (fun hpos => Bool.eq_false_iff.mp (digits_solid n _ (getElem_mem hpos)))
    rw [Text.trimChars, hfront]
    have hend := dropEndWhile_digits [] n [] (by simp)
    rwa [nil_append, append_nil] at hend
  rw [contentLength, hsplit]
  dsimp only
  rw [if_pos (by decide), htrim, Text.parseUsize_toDigits h]

/-- **A message is read back, whatever follows it.** -/
theorem readMessage_encode {body : List Char} (h : (Utf8.encode body).length < 2 ^ 64)
    (rest : List UInt8) :
    readMessage (encodeMessage body ++ rest) = (rest, .ok (some (Utf8.encode body))) := by
  have hframe : encodeMessage body ++ rest =
      Utf8.encode ("Content-Length: ".toList ++ Nat.toDigits 10 (Utf8.encode body).length ++ ['\r']
        ++ ['\n']) ++ (Utf8.encode (['\r'] ++ ['\n']) ++ (Utf8.encode body ++ rest)) := by
    rw [encodeMessage, ← append_assoc, ← append_assoc, ← Utf8.encode_append, ← Utf8.encode_append]
    simp
  have hcr : '\n' ∉ "Content-Length: ".toList ++ Nat.toDigits 10 (Utf8.encode body).length
      ++ ['\r'] := by
    rw [mem_append, mem_append]
    rintro ((hm | hm) | hm)
    · exact absurd hm (by decide)
    · exact Text.not_mem_toDigits (by decide) _ hm
    · exact absurd hm (by decide)
  have htrimmed : Text.dropEndWhile Text.isWhitespace ("Content-Length: ".toList ++
      Nat.toDigits 10 (Utf8.encode body).length ++ ['\r'] ++ ['\n']) =
      "Content-Length: ".toList ++ Nat.toDigits 10 (Utf8.encode body).length := by
    rw [append_assoc _ ['\r']]
    exact dropEndWhile_digits _ _ _ (Text.forall_of_all rfl)
  have hheaders : readHeaders ((encodeMessage body ++ rest).length + 1) none
      (encodeMessage body ++ rest) =
        .ended (some (Utf8.encode body).length) (Utf8.encode body ++ rest) := by
    obtain ⟨fuel, hfuel⟩ : ∃ fuel, (encodeMessage body ++ rest).length = fuel + 1 := by
      refine Nat.exists_eq_succ_of_ne_zero (fun hzero => ?_)
      rw [hframe] at hzero
      have hnil := append_eq_nil_iff.mp (eq_nil_of_length_eq_zero hzero)
      exact absurd (append_eq_nil_iff.mp hnil.2).1 (by decide)
    rw [hfuel, hframe, readHeaders_line hcr, htrimmed, contentLength_header h,
      if_neg (append_ne_nil_of_left_ne_nil (by decide) _), readHeaders_line (by decide),
      if_pos (by decide)]
    rfl
  rw [readMessage, hheaders]
  dsimp only
  rw [take_left, drop_left, if_neg]
  rw [length_append, not_lt]
  exact Nat.le_add_right _ _

/-! ### Texts of paths -/

theorem mark_ne_nil : "%20".toList ≠ [] := by decide

theorem not_infix_unescape (l : List Char) : ¬ "%20".toList <:+: unescape l := by
  intro h
  rcases (infix_intercalate_iff mark_ne_nil).mp h with ⟨p, hp, hin⟩ | hcross
  · exact not_infix_of_mem_cuts mark_ne_nil hp hin
  · exact not_crosses mark_ne_nil (forall_mem_singleton.mpr (by decide)) (by decide) _ hcross

theorem unescape_eq_self : ∀ {l : List Char}, ¬ "%20".toList <:+: l → unescape l = l
  | [], _ => rfl
  | c :: l, h => by
    have hfirst : ¬ "%20".toList <+: c :: l := fun hbegins => h hbegins.isInfix
    have hrest : ¬ "%20".toList <:+: l := fun hin => h (infix_cons_iff.mpr (.inr hin))
    rw [unescape, intercalate_cuts_cons hfirst]
    exact congrArg (c :: ·) (unescape_eq_self hrest)

theorem escape_begins : ∀ {u l : List Char}, '%' ∉ u → u <+: escape l → u <+: l
  | [], l, _, _ => nil_prefix
  | d :: u, [], _, h => absurd (prefix_nil.mp h) (cons_ne_nil d u)
  | d :: u, c :: l, hfree, h => by
    rw [escape, flatMap_cons] at h
    split_ifs at h with hspace
    · have hd : d = '%' := (cons_prefix_cons.mp h).1
      exact absurd (hd ▸ mem_cons_self) hfree
    · obtain ⟨rfl, hu⟩ := cons_prefix_cons.mp h
      exact cons_prefix_cons.mpr
        ⟨rfl, escape_begins (fun hm => hfree (mem_cons_of_mem d hm)) hu⟩

theorem unescape_escape (l : List Char) : unescape (escape l) = unescape l := by
  induction hn : l.length using Nat.strong_induction_on generalizing l with
  | _ n ih =>
    subst hn
    by_cases hmark : "%20".toList <+: l
    · obtain ⟨rest, rfl⟩ := hmark
      have hescape : escape ("%20".toList ++ rest) = "%20".toList ++ escape rest := rfl
      rw [hescape, unescape, unescape, intercalate_cuts_append mark_ne_nil,
        intercalate_cuts_append mark_ne_nil]
      have hlt : rest.length < ("%20".toList ++ rest).length := by
        rw [length_append]
        exact Nat.lt_add_of_pos_left (by decide)
      exact congrArg ([' '] ++ ·) (ih rest.length hlt rest rfl)
    · cases l with
      | nil => rfl
      | cons c l =>
        have hrest := ih l.length (Nat.lt_succ_self _) l rfl
        have hback : unescape (c :: l) = c :: unescape l := intercalate_cuts_cons hmark [' ']
        rw [hback, ← hrest]
        by_cases hspace : c = ' '
        · subst hspace
          exact intercalate_cuts_append mark_ne_nil [' '] (escape l)
        · have hescape : escape (c :: l) = c :: escape l := by
            rw [escape, flatMap_cons, if_neg hspace]
            rfl
          rw [hescape]
          refine intercalate_cuts_cons (fun hbegins => hmark ?_) [' ']
          obtain ⟨rfl, hrest⟩ := cons_prefix_cons.mp hbegins
          exact cons_prefix_cons.mpr ⟨rfl, escape_begins (by decide) hrest⟩

theorem slashes_eq_self {l : List Char} (h : '\\' ∉ l) : slashes l = l := by
  have hkeep : ∀ c ∈ l, (if c = '\\' then '/' else c) = c := by
    intro c hc
    exact if_neg (by
      rintro rfl
      exact h hc)
  rw [slashes, map_congr_left hkeep, map_id']

theorem not_mem_slashes (l : List Char) : '\\' ∉ slashes l := by
  intro h
  obtain ⟨c, -, hc⟩ := mem_map.mp h
  split_ifs at hc with hback
  · exact absurd hc (by decide)
  · exact hback hc

theorem infix_of_slashes {u l : List Char} (hfree : '/' ∉ u) (h : u <:+: slashes l) : u <:+: l := by
  obtain ⟨v, hv, hu⟩ := infix_map_iff.mp h
  have hsame : slashes v = v := by
    refine slashes_eq_self (fun hback => hfree ?_)
    exact hu ▸ mem_map.mpr ⟨'\\', hback, rfl⟩
  rw [hu, show v.map _ = v from hsame]
  exact hv

/-- No name has an escape or a backslash in it. -/
def PlainNames (names : FilePath) : Prop :=
  ∀ name ∈ names, ¬ "%20".toList <:+: name.toList ∧ '\\' ∉ name.toList

instance (names : FilePath) : Decidable (PlainNames names) :=
  inferInstanceAs (Decidable (∀ name ∈ _, _))

structure WorkFile where
  root : FilePath
  rel : FilePath
  below : rel ≠ []
  names : ∀ name ∈ root ++ rel, ValidName name

namespace WorkFile

variable (f : WorkFile)

def relPath : List Char := (relText f.rel).toList

def path : List Char := join f.root f.relPath

theorem named : Named f.rel := ⟨f.below, fun c hc => f.names c (mem_append_right _ hc)⟩

theorem relPath_head : f.relPath.head? ≠ some '/' := by
  intro h
  have hslash := startsWith_relText f.named
  obtain ⟨rest, hrest⟩ := head?_eq_some_iff.mp h
  rw [Text.startsWith, show (relText f.rel).toList = '/' :: rest from hrest] at hslash
  cases hslash

theorem relPath_eq : f.relPath = ['/'].intercalate (f.rel.map String.toList) := String.toList_ofList

theorem path_eq : f.path = ['/'].intercalate ([] :: (f.root ++ f.rel).map String.toList) := by
  have hne : ∀ {l : FilePath}, l ≠ [] → l.map String.toList ≠ [] :=
    fun h hnil => h (map_eq_nil_iff.mp hnil)
  rw [path, join, if_neg f.relPath_head, intercalate_cons_of_ne_nil
    (hne (append_ne_nil_of_right_ne_nil _ f.below)), nil_append, singleton_append]
  split_ifs with hroot
  · rw [hroot, relPath_eq, nil_append]
  · rw [rootText, relText, String.toList_ofList, relPath_eq, map_append,
      Text.intercalate_append (hne hroot) (hne f.below), cons_append]

theorem splitOn_path : f.path.splitOn '/' = [] :: (f.root ++ f.rel).map String.toList := by
  rw [path_eq, splitOn_intercalate]
  · intro l hl
    rcases mem_cons.mp hl with rfl | hl
    · exact not_mem_nil
    · obtain ⟨name, hname, rfl⟩ := mem_map.mp hl
      exact (f.names name hname).2.2.2
  · exact cons_ne_nil _ _

end WorkFile

theorem stripRoot_blank {segment : List Char} (h : Blank segment) (segments : List (List Char)) :
    ∀ root, stripRoot (segment :: segments) root = stripRoot segments root
  | [] => if_pos h
  | _ :: _ => if_pos h

theorem stripRoot_append : ∀ {root : FilePath} {segments : List (List Char)},
    (∀ name ∈ root, ¬ Blank name.toList) →
    (∃ first rest, segments = first :: rest ∧ ¬ Blank first) →
    stripRoot (root.map String.toList ++ segments) root = some segments
  | [], _, _, ⟨first, rest, hfirst, hnot⟩ => by
    rw [hfirst, map_nil, nil_append, stripRoot, if_neg hnot]
  | name :: root, segments, hroot, hfirst => by
    rw [map_cons, cons_append, stripRoot, if_neg (hroot name mem_cons_self),
      if_pos rfl]
    exact stripRoot_append (fun n hn => hroot n (mem_cons_of_mem name hn)) hfirst

theorem stripRoot_sound : ∀ {segments : List (List Char)} {root : FilePath}
    {rest : List (List Char)}, stripRoot segments root = some rest →
    rest <:+ segments ∧ ∀ name ∈ root, name.toList ∈ segments
  | [], root, rest, h => by
    rw [stripRoot] at h
    split_ifs at h with hroot
    obtain rfl := Option.some.inj h
    exact ⟨suffix_refl _, fun name hname => by rw [hroot] at hname; cases hname⟩
  | segment :: segments, root, rest, h => by
    by_cases hblank : Blank segment
    · rw [stripRoot_blank hblank] at h
      obtain ⟨hsuffix, hnames⟩ := stripRoot_sound h
      exact ⟨hsuffix.trans (suffix_cons segment segments),
        fun name hname => mem_cons_of_mem segment (hnames name hname)⟩
    · cases root with
      | nil =>
        rw [stripRoot, if_neg hblank] at h
        obtain rfl := Option.some.inj h
        exact ⟨suffix_refl _, fun name hname => by cases hname⟩
      | cons name root =>
        rw [stripRoot, if_neg hblank] at h
        split_ifs at h with hsame
        obtain ⟨hsuffix, hnames⟩ := stripRoot_sound h
        refine ⟨hsuffix.trans (suffix_cons segment segments), fun n hn => ?_⟩
        rcases mem_cons.mp hn with rfl | hn
        · exact hsame ▸ mem_cons_self
        · exact mem_cons_of_mem segment (hnames n hn)

theorem infix_intercalate {ps qs : List (List Char)} (h : ps <:+: qs) :
    ['/'].intercalate ps <:+: ['/'].intercalate qs := by
  obtain ⟨before, after, rfl⟩ := h
  by_cases hps : ps = []
  · rw [hps, intercalate_nil]
    exact nil_infix
  have hfront : ['/'].intercalate ps <:+: ['/'].intercalate (before ++ ps) := by
    by_cases hbefore : before = []
    · rw [hbefore, nil_append]
    · rw [Text.intercalate_append hbefore hps]
      exact (suffix_append_of_suffix (suffix_cons '/' _)).isInfix
  refine hfront.trans ?_
  by_cases hafter : after = []
  · rw [hafter, append_nil]
  · rw [Text.intercalate_append (append_ne_nil_of_right_ne_nil _ hps) hafter]
    exact (prefix_append _ _).isInfix

theorem stripPrefix_sound {root : FilePath} {path rest : List Char}
    (h : stripPrefix root path = some rest) :
    rest <:+: path ∧ ∀ name ∈ root, name.toList <:+: path := by
  rw [stripPrefix] at h
  split_ifs at h
  obtain ⟨segments, hsegments, rfl⟩ := Option.map_eq_some_iff.mp h
  obtain ⟨hsuffix, hnames⟩ := stripRoot_sound hsegments
  have hwhole : ['/'].intercalate (path.splitOn '/') = path := intercalate_splitOn '/'
  have hbegins : (segments.reverse.dropWhile (fun segment => decide (Blank segment))).reverse <+:
      segments := by
    rw [← reverse_suffix, reverse_reverse]
    exact dropWhile_suffix _
  constructor
  · have hinfix := infix_intercalate (hbegins.isInfix.trans hsuffix.isInfix)
    rwa [hwhole] at hinfix
  · intro name hname
    have hinfix := infix_intercalate_of_mem (hnames name hname) (m := ['/'])
    rwa [hwhole] at hinfix

def Reported (loc : Json) (uri : List Char) (line : Nat) : Prop :=
  (loc.field "uri").bind Json.asStr = some (String.ofList uri) ∧
    (((loc.field "range").bind (Json.field "start")).bind (Json.field "line")).bind Json.asNat =
      some line

namespace WorkFile

variable (f : WorkFile)

theorem not_blank {name : String} (h : name ∈ f.root ++ f.rel) : ¬ Blank name.toList := by
  obtain ⟨hempty, hdot, -, -⟩ := f.names name h
  rintro (hnil | hone)
  · exact hempty (String.toList_inj.mp hnil)
  · exact hdot (String.toList_inj.mp hone)

theorem path_absolute : ∃ p, f.path = '/' :: p := by
  have hne : (f.root ++ f.rel).map String.toList ≠ [] :=
    fun hnil => append_ne_nil_of_right_ne_nil _ f.below (map_eq_nil_iff.mp hnil)
  rw [path_eq, intercalate_cons_of_ne_nil hne]
  exact ⟨_, rfl⟩

theorem stripPrefix_path : stripPrefix f.root f.path = some f.relPath := by
  have hhead : f.path.head? = some '/' := by
    obtain ⟨p, hp⟩ := f.path_absolute
    rw [hp, head?_cons]
  have hroot : stripRoot (f.path.splitOn '/') f.root = some (f.rel.map String.toList) := by
    obtain ⟨name, rel, hrel⟩ := exists_cons_of_ne_nil f.below
    have hmem : name ∈ f.root ++ f.rel := mem_append_right _ (hrel ▸ mem_cons_self)
    rw [splitOn_path, stripRoot_blank (.inl rfl), map_append]
    refine stripRoot_append (fun n hn => f.not_blank (mem_append_left _ hn)) ?_
    exact ⟨name.toList, rel.map String.toList, by rw [hrel, map_cons], f.not_blank hmem⟩
  have hlast : (f.rel.map String.toList).reverse.dropWhile (fun segment => decide (Blank segment)) =
      (f.rel.map String.toList).reverse := by
    refine dropWhile_eq_self_iff.mpr (fun hpos hblank => ?_)
    obtain ⟨name, hname, heq⟩ := mem_map.mp (mem_reverse.mp (getElem_mem hpos))
    exact f.not_blank (mem_append_right _ hname) (heq ▸ of_decide_eq_true hblank)
  rw [stripPrefix, if_pos hhead, hroot, Option.map_some, hlast, reverse_reverse, relPath_eq]

theorem path_plain (h : PlainNames (f.root ++ f.rel)) :
    ¬ "%20".toList <:+: f.path ∧ '\\' ∉ f.path := by
  rw [path_eq]
  constructor
  · intro hmark
    rcases (infix_intercalate_iff mark_ne_nil).mp hmark with ⟨p, hp, hin⟩ | hcross
    · rcases mem_cons.mp hp with rfl | hp
      · exact mark_ne_nil (infix_nil.mp hin)
      · obtain ⟨name, hname, rfl⟩ := mem_map.mp hp
        exact (h name hname).1 hin
    · exact not_crosses mark_ne_nil (forall_mem_singleton.mpr (by decide)) (by decide) _ hcross
  · intro hback
    rcases Text.mem_intercalate hback with hslash | ⟨p, hp, hin⟩
    · exact absurd hslash (by decide)
    · rcases mem_cons.mp hp with rfl | hp
      · cases hin
      · obtain ⟨name, hname, rfl⟩ := mem_map.mp hp
        exact (h name hname).2 hin

theorem uriToPath_uri : uriToPath (pathToUri f.path) = slashes (unescape f.path) := by
  obtain ⟨p, hp⟩ := f.path_absolute
  have hescape : escape f.path = '/' :: escape p := by
    rw [hp]
    rfl
  have hnot : ¬ "file://".toList <+: '/' :: escape p :=
    fun h => absurd (cons_prefix_cons.mp h).1 (by decide)
  rw [uriToPath, pathToUri, hescape, if_neg hnot, ← hescape,
    dropPrefix?_append_of_beq _ BEq.rfl, Option.getD_some, unescape_escape]

theorem normalized_iff : ((stripPrefix f.root (slashes (unescape f.path))).map slashes).getD
      (slashes (unescape f.path)) = f.relPath ↔ PlainNames (f.root ++ f.rel) := by
  constructor
  · intro h
    cases hstrip : stripPrefix f.root (slashes (unescape f.path)) with
    | none =>
      rw [hstrip, Option.map_none, Option.getD_none] at h
      obtain ⟨p, hp⟩ := f.path_absolute
      have hcons : unescape f.path = '/' :: unescape p := by
        rw [hp]
        exact intercalate_cuts_cons
          (fun hmark => absurd (cons_prefix_cons.mp hmark).1 (by decide)) _
      rw [hcons] at h
      exact absurd (h ▸ rfl) f.relPath_head
    | some rest =>
      obtain ⟨hrest, hroot⟩ := stripPrefix_sound hstrip
      have hplain : ∀ {u}, u <:+: slashes (unescape f.path) → ¬ "%20".toList <:+: u ∧ '\\' ∉ u := by
        intro u hu
        refine ⟨fun hmark => not_infix_unescape f.path ?_,
          fun hback => not_mem_slashes _ (hu.subset hback)⟩
        exact infix_of_slashes (by decide) (hmark.trans hu)
      rw [hstrip, Option.map_some, Option.getD_some, slashes_eq_self (hplain hrest).2] at h
      intro name hname
      rcases mem_append.mp hname with hname | hname
      · exact hplain (hroot name hname)
      · refine hplain (List.IsInfix.trans ?_ hrest)
        rw [h, relPath_eq]
        exact infix_intercalate_of_mem (mem_map.mpr ⟨name, hname, rfl⟩)
  · intro h
    obtain ⟨hmark, hback⟩ := f.path_plain h
    have hrel : f.relPath <:+: f.path := (stripPrefix_sound f.stripPrefix_path).1
    rw [unescape_eq_self hmark, slashes_eq_self hback, f.stripPrefix_path, Option.map_some,
      Option.getD_some, slashes_eq_self (fun hin => hback (hrel.subset hin))]

theorem normalizeLocation_iff {loc : Json} {line : Nat} (h : Reported loc (pathToUri f.path) line) :
    normalizeLocation loc f.root = some ⟨f.relPath, line + 1⟩ ↔
      PlainNames (f.root ++ f.rel) ∧ line + 1 < 2 ^ 64 := by
  have hline : (((loc.field "range").bind (Json.field "start")).bind
      (Json.field "line")).bind asU64 = if line < 2 ^ 64 then some line else none := by
    obtain ⟨j, hj, hnat⟩ := Option.bind_eq_some_iff.mp h.2
    rw [hj, Option.bind_some, asU64, hnat, Option.filter_some]
    exact if_congr decide_eq_true_iff rfl rfl
  rw [normalizeLocation, h.1, hline, ← f.normalized_iff, ← f.uriToPath_uri]
  split_ifs with hlt
  · show some (SymbolLocation.mk _ _) = _ ↔ _
    rw [String.toList_ofList, Option.some.injEq, SymbolLocation.mk.injEq]
    exact and_congr_right (fun _ => ⟨fun h => by omega, Nat.mod_eq_of_lt⟩)
  · refine iff_of_false (fun h => by cases h) (fun h => hlt ?_)
    exact (Nat.lt_succ_self line).trans h.2

end WorkFile

/-! ### Runs of a session -/

def Call.target : Call → Option (List Char)
  | .ensureOpen _ _ => none
  | .definition relPath _ _ _ => some relPath
  | .references relPath _ _ _ _ => some relPath

def Call.request (s : LspSession) : Call → Option Sent
  | .ensureOpen _ _ => none
  | .definition relPath line character _ =>
    some (.request s.nextId "textDocument/definition" (s.uri relPath) line character none)
  | .references relPath line character includeDeclaration _ =>
    some (.request s.nextId "textDocument/references" (s.uri relPath) line character
      (some includeDeclaration))

/-- The bytes of the last `ensureOpen` of a file. -/
def lastOpened (relPath : List Char) (calls : List Call) : Option (List UInt8) :=
  calls.reverse.findSome? (fun
    | .ensureOpen path bytes => if path = relPath then some bytes else none
    | _ => none)

/-- The bytes of the first `ensureOpen` with a URI. -/
def firstOpened (root : FilePath) (uri : List Char) (calls : List Call) : Option (List UInt8) :=
  calls.findSome? (fun
    | .ensureOpen path bytes => if pathToUri (join root path) = uri then some bytes else none
    | _ => none)

def given (uri : List Char) (sent : List Sent) : Option (List Char) :=
  sent.reverse.findSome? (fun
    | .didOpen opened text => if opened = uri then some text else none
    | _ => none)

def Sent.AnsweredBy (msg : Json) : Sent → Prop
  | .didOpen _ _ => False
  | .request id .. => Responds msg id

section Session

variable (parse : List UInt8 → Option Json)

inductive Comes : List UInt8 → Json → Prop
  | here {s rest body : List UInt8} {msg : Json} (h : readMessage s = (rest, .ok (some body)))
      (hparse : parse body = some msg) : Comes s msg
  | later {s rest body : List UInt8} {msg : Json} (h : readMessage s = (rest, .ok (some body)))
      (hrest : Comes rest msg) : Comes s msg

/-- A request is about the text that was passed last. -/
def Current (s : LspSession) (prior : List Call) (call : Call) : Prop :=
  ∀ relPath ∈ call.target, ∀ bytes ∈ lastOpened relPath prior,
    (given (s.uri relPath) s.sent).map Utf8.encode = some bytes

/-- A result is that of a message which answers the request and none before it. -/
def OwnAnswer (s : LspSession) (call : Call) : Prop :=
  ∀ request ∈ call.request s, (step parse s call).1.sent = s.sent ++ [request] ∧
    ∀ locations, (step parse s call).2 = .ok locations → ∃ msg, Comes parse s.incoming msg ∧
      request.AnsweredBy msg ∧ (∀ earlier ∈ s.sent, ¬ earlier.AnsweredBy msg) ∧
      msg.field "method" = none ∧ msg.field "error" = none ∧
      locations = normalizeResult s.root ((msg.field "result").getD .null)

variable {parse} {s : LspSession}

theorem responds_inj {msg : Json} {id id' : Nat} (h : Responds msg id) (h' : Responds msg id') :
    id = id' := by
  have hkind : ∀ {t : String} {n : Nat}, (msg.field "id").bind Json.asStr = some t →
      (msg.field "id").bind Json.asNat ≠ some n := by
    intro t n hstr hnat
    obtain ⟨j, hj, hs⟩ := Option.bind_eq_some_iff.mp hstr
    rw [hj, Option.bind_some] at hnat
    cases j <;> cases hs
    cases hnat
  rcases h with h | h <;> rcases h' with h' | h'
  · exact label_inj (congrArg ("" ++ ·) (Option.some.inj (h.symm.trans h')))
  · exact absurd h' (hkind h)
  · exact absurd h (hkind h')
  · exact Option.some.inj (h.symm.trans h')

theorem readResponse_ok {method : String} {timeoutMs id : Nat} {msg : Json} : ∀ {polls : Nat}
    {stream rest : List UInt8},
    readResponse parse method timeoutMs id polls stream = (rest, .ok (some msg)) →
    Comes parse stream msg ∧ Responds msg id ∧ msg.field "method" = none ∧
      msg.field "error" = none := by
  intro polls
  induction polls with
  | zero => intro stream rest h; cases h
  | succ polls ih =>
    intro stream rest h
    have hlater : ∀ {tail body}, readMessage stream = (tail, .ok (some body)) →
        readResponse parse method timeoutMs id polls tail = (rest, .ok (some msg)) →
        Comes parse stream msg ∧ Responds msg id ∧ msg.field "method" = none ∧
          msg.field "error" = none :=
      fun hread hwait => ⟨.later hread (ih hwait).1, (ih hwait).2⟩
    rw [readResponse] at h
    split at h
    · cases h
    · cases h
    · next tail body hread =>
      split at h
      · exact hlater hread h
      · next found hparse =>
        split_ifs at h with hmethod hresponds
        · exact hlater hread h
        · split at h
          · cases h
          · next herror =>
            cases h
            exact ⟨.here hread hparse, hresponds, Option.not_isSome_iff_eq_none.mp hmethod, herror⟩
        · exact hlater hread h

/-- What holds of a session after some calls. -/
structure Served (r : FilePath) (prior : List Call) (s : LspSession) : Prop where
  root : s.root = r
  opened : ∀ uri, uri ∈ s.opened ↔ (firstOpened r uri prior).isSome
  texts : ∀ uri, given uri s.sent = (firstOpened r uri prior).map Utf8.lossy
  ids : ∀ earlier ∈ s.sent, ∀ msg, earlier.AnsweredBy msg → ∃ id < s.nextId, Responds msg id

variable {root : FilePath} {prior : List Call}

theorem firstOpened_concat (uri : List Char) (call : Call) :
    firstOpened root uri (prior ++ [call]) =
      (firstOpened root uri prior).or (firstOpened root uri [call]) := findSome?_append

theorem given_concat (uri : List Char) (sent : List Sent) (last : Sent) :
    given uri (sent ++ [last]) = (given uri [last]).or (given uri sent) := by
  rw [given, reverse_append, findSome?_append]
  rfl

theorem given_didOpen (uri opened text : List Char) :
    given uri [.didOpen opened text] = if opened = uri then some text else none := by
  rw [given, reverse_singleton, findSome?_cons, findSome?_nil]
  dsimp only
  split_ifs <;> rfl

theorem Served.request (h : Served root prior s) {call : Call} {path : List Char}
    (hcall : call.target = some path) (method : String) (line character : Nat)
    (includeDeclaration : Option Bool) (polls : Nat) : Served root (prior ++ [call])
      (s.requestPosition parse method path line character includeDeclaration polls).1 := by
  have hnone : ∀ uri, firstOpened root uri [call] = none := by
    intro uri
    cases call with
    | ensureOpen => cases hcall
    | definition => rfl
    | references => rfl
  have hsame : ∀ uri, firstOpened root uri (prior ++ [call]) = firstOpened root uri prior := by
    intro uri
    rw [firstOpened_concat, hnone, Option.or_none]
  refine ⟨h.root, fun uri => ?_, fun uri => ?_, ?_⟩
  · rw [hsame]
    exact h.opened uri
  · rw [hsame, ← h.texts]
    exact given_concat uri s.sent _
  · intro earlier hmem msg hanswer
    rcases mem_append.mp hmem with hmem | hmem
    · obtain ⟨id, hlt, hid⟩ := h.ids earlier hmem msg hanswer
      exact ⟨id, Nat.lt_succ_of_lt hlt, hid⟩
    · obtain rfl := mem_singleton.mp hmem
      exact ⟨s.nextId, Nat.lt_succ_self _, hanswer⟩

theorem Served.ensureOpen (h : Served root prior s) (path : List Char) (bytes : List UInt8) :
    Served root (prior ++ [.ensureOpen path bytes]) (s.ensureOpen path bytes) := by
  have hone : ∀ uri, firstOpened root uri [.ensureOpen path bytes] =
      if s.uri path = uri then some bytes else none := by
    intro uri
    rw [LspSession.uri, h.root, firstOpened, findSome?_cons, findSome?_nil]
    dsimp only
    split_ifs <;> rfl
  by_cases hopen : s.uri path ∈ s.opened
  · have hsame : ∀ uri, firstOpened root uri (prior ++ [.ensureOpen path bytes]) =
        firstOpened root uri prior := by
      intro uri
      rw [firstOpened_concat, hone]
      split_ifs with huri
      · obtain ⟨b, hb⟩ := Option.isSome_iff_exists.mp ((h.opened uri).mp (huri ▸ hopen))
        rw [hb, Option.some_or]
      · exact Option.or_none
    rw [LspSession.ensureOpen, if_pos hopen]
    exact ⟨h.root, fun uri => by rw [hsame]; exact h.opened uri,
      fun uri => by rw [hsame]; exact h.texts uri, h.ids⟩
  · rw [LspSession.ensureOpen, if_neg hopen]
    have hfirst : firstOpened root (s.uri path) prior = none := by
      rw [h.opened, Bool.not_eq_true, Option.isSome_eq_false_iff,
        Option.isNone_iff_eq_none] at hopen
      exact hopen
    refine ⟨h.root, fun uri => ?_, fun uri => ?_, ?_⟩
    · rw [firstOpened_concat, hone, Option.isSome_or, Bool.or_eq_true, ← h.opened, mem_append,
        mem_singleton]
      refine or_congr_right ?_
      split_ifs with huri
      · exact iff_of_true huri.symm rfl
      · exact iff_of_false (fun heq => huri heq.symm) Bool.false_ne_true
    · rw [firstOpened_concat, hone]
      rw [given_concat, given_didOpen, h.texts]
      split_ifs with huri
      · rw [← huri, hfirst]
        rfl
      · rw [Option.none_or, Option.or_none]
    · intro earlier hmem msg hanswer
      rcases mem_append.mp hmem with hmem | hmem
      · exact h.ids earlier hmem msg hanswer
      · obtain rfl := mem_singleton.mp hmem
        exact hanswer.elim

variable (parse) in
theorem served_run (root : FilePath) (timeout : Nat) (incoming : List UInt8) (calls : List Call) :
    Served root calls (run (step parse) (spawn root timeout incoming) calls) := by
  induction calls using List.reverseRecOn with
  | nil => exact ⟨rfl, fun uri => iff_of_false not_mem_nil Bool.false_ne_true, fun uri => rfl,
      fun earlier hmem => by cases hmem⟩
  | append_singleton calls call ih =>
    rw [run_append]
    cases call with
    | ensureOpen path bytes => exact ih.ensureOpen path bytes
    | definition path line character polls => exact ih.request rfl _ line character none polls
    | references path line character includeDeclaration polls =>
      exact ih.request rfl _ line character (some includeDeclaration) polls

theorem Served.current_iff (h : Served root prior s) (call : Call) : Current s prior call ↔
    ∀ relPath ∈ call.target, ∀ bytes ∈ lastOpened relPath prior,
      (firstOpened root (pathToUri (join root relPath)) prior).map (Utf8.encode ∘ Utf8.lossy) =
        some bytes := by
  refine forall₄_congr (fun relPath _ bytes _ => ?_)
  rw [h.texts, Option.map_map, LspSession.uri, h.root]

theorem Served.ownAnswer (h : Served root prior s) (call : Call) : OwnAnswer parse s call := by
  have hposition : ∀ method path line character includeDeclaration polls locations,
      (s.requestPosition parse method path line character includeDeclaration polls).2.map
        (normalizeResult s.root) = .ok locations → ∃ msg, Comes parse s.incoming msg ∧
        Responds msg s.nextId ∧ (∀ earlier ∈ s.sent, ¬ earlier.AnsweredBy msg) ∧
        msg.field "method" = none ∧ msg.field "error" = none ∧
        locations = normalizeResult s.root ((msg.field "result").getD .null) := by
    intro method path line character includeDeclaration polls locations hok
    rw [LspSession.requestPosition] at hok
    split at hok
    · cases hok
    · cases hok
    · next msg hread =>
      obtain ⟨hcomes, hresponds, hmethod, herror⟩ := readResponse_ok (Prod.ext rfl hread)
      refine ⟨msg, hcomes, hresponds, fun earlier hmem hanswer => ?_, hmethod, herror,
        (Except.ok.inj hok).symm⟩
      obtain ⟨id, hlt, hid⟩ := h.ids earlier hmem msg hanswer
      exact absurd (responds_inj hid hresponds) (Nat.ne_of_lt hlt)
  cases call with
  | ensureOpen path bytes =>
    intro request hrequest
    cases hrequest
  | definition path line character polls =>
    intro request hrequest
    obtain rfl := Option.some.inj hrequest
    exact ⟨rfl, hposition _ path line character none polls⟩
  | references path line character includeDeclaration polls =>
    intro request hrequest
    obtain rfl := Option.some.inj hrequest
    exact ⟨rfl, hposition _ path line character (some includeDeclaration) polls⟩

structure Lawful (parse : List UInt8 → Option Json) (f : WorkFile) (timeout : Nat)
    (incoming : List UInt8) (calls : List Call) (line : Nat) : Prop where
  current : ∀ prior call, prior ++ [call] <+: calls →
    Current (run (step parse) (spawn f.root timeout incoming) prior) prior call
  answers : ∀ prior call, prior ++ [call] <+: calls →
    OwnAnswer parse (run (step parse) (spawn f.root timeout incoming) prior) call
  framing : ∀ body rest, (Utf8.encode body).length < 2 ^ 64 →
    readMessage (encodeMessage body ++ rest) = (rest, .ok (some (Utf8.encode body)))
  located : ∀ loc, Reported loc (pathToUri f.path) line →
    normalizeLocation loc f.root = some ⟨f.relPath, line + 1⟩

/-- **A session does what it promises** exactly if the first text of every file that is asked
about is the last one and valid, and no name of the file has an escape or a backslash in it. -/
theorem session_lawful_iff (parse : List UInt8 → Option Json) (f : WorkFile) (timeout : Nat)
    (incoming : List UInt8) (calls : List Call) (line : Nat) :
    Lawful parse f timeout incoming calls line ↔
      (∀ prior call, prior ++ [call] <+: calls → ∀ relPath ∈ call.target,
        ∀ bytes ∈ lastOpened relPath prior,
          (firstOpened f.root (pathToUri (join f.root relPath)) prior).map
            (Utf8.encode ∘ Utf8.lossy) = some bytes) ∧
      PlainNames (f.root ++ f.rel) ∧ line + 1 < 2 ^ 64 := by
  have hcurrent := fun prior call =>
    (served_run parse f.root timeout incoming prior).current_iff call
  constructor
  · intro h
    refine ⟨fun prior call hprior => (hcurrent prior call).mp (h.current prior call hprior), ?_⟩
    -- a location as a server reports it
    let loc := Json.obj [("uri", .str (String.ofList (pathToUri f.path))),
      ("range", .obj [("start", .obj [("line", .num line)])])]
    have hloc : Reported loc (pathToUri f.path) line := ⟨rfl, rfl⟩
    exact (f.normalizeLocation_iff hloc).mp (h.located loc hloc)
  · rintro ⟨hfirst, hplain, hline⟩
    exact ⟨fun prior call hprior => (hcurrent prior call).mpr (hfirst prior call hprior),
      fun prior call _ => (served_run parse f.root timeout incoming prior).ownAnswer call,
      fun body rest hlen => readMessage_encode hlen rest,
      fun loc hloc => (f.normalizeLocation_iff hloc).mpr ⟨hplain, hline⟩⟩

/-- A file is opened with one text, changed and opened again; and `a%20b` is reported as `a b`. -/
theorem stale_and_renamed :
    ¬ Lawful (fun _ => none) ⟨["w"], ["a"], by decide, by decide⟩ 30000 []
      [.ensureOpen ['a'] [0x31], .ensureOpen ['a'] [0x32], .definition ['a'] 0 0 1] 0 ∧
    ¬ Lawful (fun _ => none) ⟨["w"], ["a%20b"], by decide, by decide⟩ 30000 [] [] 0 := by
  refine ⟨fun h => ?_, fun h => ?_⟩
  · have hlast := h.current [.ensureOpen ['a'] [0x31], .ensureOpen ['a'] [0x32]]
      (.definition ['a'] 0 0 1) (prefix_refl _) ['a'] rfl [0x32] rfl
    exact absurd hlast (by decide)
  · have hback := h.located (.obj [("uri", .str "file:///w/a%20b"),
      ("range", .obj [("start", .obj [("line", .num 0)])])]) ⟨by decide, rfl⟩
    exact absurd hback (by decide)

end Session

end Lsp

end Modbit
