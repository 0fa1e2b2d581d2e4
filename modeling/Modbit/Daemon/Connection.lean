import Modbit.Lib.BufReader
import Modbit.Lib.Terminated
import Modbit.Lib.Text
import Modbit.Lib.Utf8

/-!
# A connection to the daemon

`handle_connection` reads the head of a request line by line through a buffer, and the body of a command
with one read into a buffer of zeros.  A connection is the pieces it delivers (`ByteStream`); one that stays
open and silent is as one that fails.

`handleConnection_head`: the head is read the same however it is cut.  `command_delivered_iff` is when the
body is: when the bytes that the one read does not see are zero; and a command that is cut off is handled
nonetheless, unless the cut is in the head and what is there is none yet, or the connection fails before
the body.
-/

namespace Modbit.Daemon

open Lib List

def MAX_BODY : Nat := 8 * 1024 * 1024

def newline : UInt8 := 0x0A

structure Route where
  method : String
  path : String
  query : String
  deriving DecidableEq

def routeOf (requestLine : List Char) : Route :=
  let parts := Text.splitWhitespace (String.ofList requestLine)
  let method := parts[0]?.getD ""
  let target := parts[1]?.getD ""
  match Text.splitOnce '?' target.toList with
  | some (p, q) => ⟨method, String.ofList p, String.ofList q⟩
  | none => ⟨method, target, ""⟩

def announced (header : List Char) (contentLength : Nat) : Nat :=
  let lower := header.map Char.toLower
  if "content-length:".toList <+: lower then
    (Text.parseUsize (Text.trimChars (lower.drop "content-length:".length))).getD 0
  else contentLength

/-- What is done with a connection; `dropped` is that nothing is. -/
inductive Outcome where
  | dropped
  | tooLarge
  | command (body : List UInt8)
  | fleet
  | events (query : String)
  | notFound
  deriving DecidableEq

def Outcome.commands : Outcome → List (List UInt8)
  | .command body => [body]
  | _ => []

/-- `read_line`. -/
def readLine (r : BufReader) : BufReader × Option (List Char) :=
  match r.readUntil newline with
  | (r', none) => (r', none)
  | (r', some line) => (r', Utf8.decode line)

theorem length_readLine {r r' : BufReader} {header : List Char} (h : readLine r = (r', some header))
    (hne : header ≠ []) : r'.bytes.length < r.bytes.length := by
  unfold readLine at h
  split at h
  · cases h
  · next line hline =>
    obtain ⟨rfl, hdecode⟩ := Prod.mk.inj h
    rw [BufReader.bytes_readUntil hline, length_append]
    refine Nat.lt_add_of_pos_left (length_pos_iff.mpr fun hnil => hne ?_)
    rw [hnil, show ([] : List UInt8) = Utf8.encode [] from rfl, Utf8.decode_encode] at hdecode
    exact (Option.some.inj hdecode).symm

def Blank (header : List Char) : Prop := Text.trimChars header = []

instance (header : List Char) : Decidable (Blank header) :=
  inferInstanceAs (Decidable (Text.trimChars header = []))

/-- The loop over the headers: the end of the connection, or a line that is blank, is the end of them. -/
def readHeaders (r : BufReader) (contentLength : Nat) : BufReader × Option Nat :=
  match h : readLine r with
  | (r', none) => (r', none)
  | (r', some header) =>
    if hnil : header = [] then (r', some contentLength)
    else if Blank header then (r', some contentLength)
    else
      have := length_readLine h hnil
      readHeaders r' (announced header contentLength)
termination_by r.bytes.length

def Route.IsCommand (route : Route) : Prop := route.method = "POST" ∧ route.path = "/commands"

instance (route : Route) : Decidable route.IsCommand :=
  inferInstanceAs (Decidable (route.method = "POST" ∧ route.path = "/commands"))

def handleConnection (s : ByteStream) : Outcome :=
  match readLine ⟨[], s⟩ with
  | (_, none) => .dropped
  | (r, some requestLine) =>
    match readHeaders r 0 with
    | (_, none) => .dropped
    | (r, some contentLength) =>
      if (routeOf requestLine).IsCommand then
        if contentLength > MAX_BODY then .tooLarge
        else
          match (r.read contentLength).2 with
          | none => .dropped
          | some got => .command (got ++ List.replicate (contentLength - got.length) 0)
      else if (routeOf requestLine).method = "GET" ∧ (routeOf requestLine).path = "/fleet" then .fleet
      else if (routeOf requestLine).method = "GET" ∧ (routeOf requestLine).path = "/events" then
        .events (routeOf requestLine).query
      else .notFound

/-! ### Requests -/

def Line (l : List UInt8) : Prop := ∃ b, newline ∉ b ∧ l = b ++ [newline]

/-- The length of the content after the line of a header. -/
def noted (contentLength : Nat) (l : List UInt8) : Nat :=
  announced ((Utf8.decode l).getD []) contentLength

/-- A command of a client: what it announces is the length of its body, which is not too large.  A header
may be of any bytes. -/
structure Request where
  requestLine : List UInt8
  headers : List (List UInt8)
  blank : List UInt8
  body : List UInt8
  first : Line requestLine
  lines : ∀ l ∈ headers, Line l ∧ ∀ header, Utf8.decode l = some header → ¬ Blank header
  last : Line blank ∧ ∃ header, Utf8.decode blank = some header ∧ Blank header
  isCommand : ∃ text, Utf8.decode requestLine = some text ∧ (routeOf text).IsCommand
  announces : headers.foldl noted 0 = body.length
  bounded : body.length ≤ MAX_BODY

namespace Request

def head (q : Request) : List UInt8 := q.requestLine ++ (q.headers.flatten ++ q.blank)

def IsText (q : Request) : Prop := ∀ l ∈ q.headers, Utf8.decode l ≠ none

end Request

variable {r r' : BufReader} {l : List UInt8}

theorem Line.through (h : Line l) (rest : List UInt8) : through newline (l ++ rest) = l := by
  obtain ⟨b, hb, rfl⟩ := h
  rw [append_assoc, through_append hb]
  rfl

variable {rest : List UInt8}

/-- **A line is read as it is**, however it is cut. -/
theorem readLine_of_line (hs : r.inner.Steady) (h : Line l) (hbytes : r.bytes = l ++ rest) :
    ∃ r', readLine r = (r', Utf8.decode l) ∧ BufReader.Takes l r r' := by
  have hmem : newline ∈ r.bytes := by
    obtain ⟨b, -, rfl⟩ := h
    rw [hbytes]
    exact mem_append_left _ (mem_append_right _ mem_cons_self)
  have hspec := BufReader.readUntil_spec newline r hs
  rw [if_pos (.inl hmem), hbytes, h.through rest] at hspec
  obtain ⟨r', hread, htakes⟩ := hspec
  exact ⟨r', by rw [readLine, hread], htakes⟩

variable {n : Nat}

theorem readHeaders_of_none (h : readLine r = (r', none)) : readHeaders r n = (r', none) := by
  rw [readHeaders]
  split
  · next heq => exact congrArg (·, none) (congrArg Prod.fst (heq.symm.trans h))
  · next heq => cases heq.symm.trans h

theorem readHeaders_of_some {header : List Char} (h : readLine r = (r', some header)) :
    readHeaders r n = if Blank header then (r', some n) else readHeaders r' (announced header n) := by
  rw [readHeaders]
  split
  · next heq => cases heq.symm.trans h
  · next heq =>
    obtain ⟨rfl, hheader⟩ := Prod.mk.inj (heq.symm.trans h)
    obtain rfl := Option.some.inj hheader
    split_ifs with hnil hblank
    · rfl
    · exact absurd (by rw [hnil]; rfl) hblank
    · rfl
    · rfl

/-- **The headers are read as they are**, however they are cut. -/
theorem readHeaders_of_lines {headers : List (List UInt8)} {blank : List UInt8}
    (hlast : Line blank ∧ ∃ header, Utf8.decode blank = some header ∧ Blank header) :
    ∀ {r : BufReader} {n : Nat}, r.inner.Steady →
      (∀ l ∈ headers, Line l ∧ ∀ header, Utf8.decode l = some header → ¬ Blank header) →
      (∀ l ∈ headers, Utf8.decode l ≠ none) → r.bytes = headers.flatten ++ blank ++ rest →
      ∃ r', readHeaders r n = (r', some (headers.foldl noted n)) ∧
        BufReader.Takes (headers.flatten ++ blank) r r' := by
  induction headers with
  | nil =>
    intro r n hs _ _ hbytes
    obtain ⟨hline, header, hdecode, hblank⟩ := hlast
    obtain ⟨r', hread, htakes⟩ := readLine_of_line hs hline hbytes
    rw [hdecode] at hread
    exact ⟨r', (readHeaders_of_some hread).trans (if_pos hblank), htakes⟩
  | cons l headers ih =>
    intro r n hs hlines htext hbytes
    obtain ⟨hl, hfull⟩ := hlines l mem_cons_self
    obtain ⟨header, hheader⟩ := Option.ne_none_iff_exists'.mp (htext l mem_cons_self)
    rw [flatten_cons, append_assoc, append_assoc] at hbytes
    obtain ⟨r₁, hread, htakes⟩ := readLine_of_line hs hl hbytes
    have hrest : r₁.bytes = headers.flatten ++ blank ++ rest := by
      rw [append_assoc]
      exact append_cancel_left (htakes.bytes.symm.trans hbytes)
    obtain ⟨r', hheaders, hmore⟩ := ih (n := noted n l) htakes.steady
      (fun l' hl' => hlines l' (mem_cons_of_mem l hl'))
      (fun l' hl' => htext l' (mem_cons_of_mem l hl')) hrest
    refine ⟨r', ?_, ?_⟩
    · rw [hheader] at hread
      rw [readHeaders_of_some hread, if_neg (hfull header hheader), foldl_cons, ← hheaders, noted,
        hheader]
      rfl
    · rw [flatten_cons, append_assoc]
      exact htakes.trans hmore

/-! ### A request that is cut off, or no text -/

theorem readLine_of_short (hs : r.inner.Steady) (hends : r.inner.ending = .fails) (h : Line l)
    (hbegins : r.bytes <+: l ++ rest) (hshort : r.bytes.length < l.length) :
    (readLine r).2 = none := by
  have hnot : newline ∉ r.bytes := by
    obtain ⟨b, hb, rfl⟩ := h
    rw [length_append] at hshort
    rw [append_assoc] at hbegins
    exact fun hmem => hb ((prefix_of_prefix_length_le hbegins (prefix_append b _)
      (Nat.lt_succ_iff.mp hshort)).subset hmem)
  have hspec := BufReader.readUntil_spec newline r hs
  rw [if_neg (fun hor => hor.elim hnot (fun hclosed => by cases hends.symm.trans hclosed))] at hspec
  rw [readLine, show r.readUntil newline = (_, none) from Prod.ext rfl hspec]

theorem length_append_le_iff (l a b : List UInt8) :
    (l ++ a).length ≤ (l ++ b).length ↔ a.length ≤ b.length := by
  rw [length_append, length_append, Nat.add_le_add_iff_left]

theorem length_append_lt_iff (l a b : List UInt8) :
    (l ++ a).length < (l ++ b).length ↔ a.length < b.length := by
  rw [length_append, length_append, Nat.add_lt_add_iff_left]

theorem exists_of_prefix {b l rest : List UInt8} (h : b <+: l ++ rest) (hle : l.length ≤ b.length) :
    ∃ b', b = l ++ b' ∧ b' <+: rest := by
  obtain ⟨b', rfl⟩ := prefix_of_prefix_length_le (prefix_append l rest) h hle
  exact ⟨b', rfl, (prefix_append_right_inj l).mp h⟩

/-- **Headers of which one is no text, or that a failing connection does not bring to their end, are an
error.** -/
theorem readHeaders_eq_none {headers : List (List UInt8)} {blank rest : List UInt8} (hlast : Line blank) :
    ∀ {r : BufReader} {n : Nat}, r.inner.Steady →
      (∀ l ∈ headers, Line l ∧ ∀ header, Utf8.decode l = some header → ¬ Blank header) →
      r.bytes <+: headers.flatten ++ blank ++ rest →
      (headers.flatten ++ blank).length ≤ r.bytes.length ∨ r.inner.ending = .fails →
      (∃ l ∈ headers, Utf8.decode l = none) ∨ r.bytes.length < (headers.flatten ++ blank).length →
      (readHeaders r n).2 = none := by
  induction headers with
  | nil =>
    intro r n hs _ hbegins hthere hbad
    rw [flatten_nil, nil_append] at hbegins hthere hbad
    have hshort : r.bytes.length < blank.length := hbad.resolve_left (fun ⟨l, hl, _⟩ => by cases hl)
    have hends := hthere.resolve_left (Nat.not_le.mpr hshort)
    have hread : readLine r = ((readLine r).1, none) :=
      Prod.ext rfl (readLine_of_short hs hends hlast hbegins hshort)
    rw [readHeaders_of_none hread]
  | cons l headers ih =>
    intro r n hs hlines hbegins hthere hbad
    obtain ⟨hl, hfull⟩ := hlines l mem_cons_self
    rw [flatten_cons, append_assoc] at hthere hbad
    rw [flatten_cons, append_assoc, append_assoc] at hbegins
    rcases Nat.lt_or_ge r.bytes.length l.length with hlt | hge
    · have hends : r.inner.ending = .fails := by
        refine hthere.resolve_left (Nat.not_le.mpr ?_)
        rw [length_append]
        exact Nat.lt_add_right _ hlt
      have hread : readLine r = ((readLine r).1, none) :=
        Prod.ext rfl (readLine_of_short hs hends hl hbegins hlt)
      rw [readHeaders_of_none hread]
    · obtain ⟨b', hbytes, hbegins'⟩ := exists_of_prefix hbegins hge
      obtain ⟨r₁, hread, htakes⟩ := readLine_of_line hs hl hbytes
      have hrest : r₁.bytes = b' := append_cancel_left (htakes.bytes.symm.trans hbytes)
      cases hdecode : Utf8.decode l with
      | none =>
        rw [hdecode] at hread
        rw [readHeaders_of_none hread]
      | some header =>
        rw [hdecode] at hread
        rw [readHeaders_of_some hread, if_neg (hfull header hdecode)]
        rw [hbytes, length_append_le_iff] at hthere
        rw [hbytes, length_append_lt_iff] at hbad
        refine ih htakes.steady (fun l' hl' => hlines l' (mem_cons_of_mem l hl')) ?_ ?_ ?_
        · rw [hrest, append_assoc]
          exact hbegins'
        · rw [hrest, htakes.ending]
          exact hthere
        · rw [hrest]
          refine hbad.imp_left (fun ⟨l', hl', hnone⟩ => ?_)
          rcases mem_cons.mp hl' with rfl | hmem
          · cases hdecode.symm.trans hnone
          · exact ⟨l', hmem, hnone⟩

/-- The length that the lines of a head announce, as far as they go; `none` if one is no text. -/
def lengthIn : List (List UInt8) → Nat → Option Nat
  | [], n => some n
  | line :: lines, n =>
    match Utf8.decode line with
    | none => none
    | some header => if Blank header then some n else lengthIn lines (announced header n)

/-- The length of the body of the command that a text reads as, whether its head is there to the end or
not; `none` if it reads as none, or as one that is too large. -/
def commandIn (text : List UInt8) : Option Nat :=
  match terminated newline text with
  | [] => none
  | line :: lines =>
    match Utf8.decode line with
    | none => none
    | some requestLine =>
      if (routeOf requestLine).IsCommand then (lengthIn lines 0).filter (· ≤ MAX_BODY) else none

theorem terminated_eq : ∀ {text : List UInt8}, text ≠ [] →
    terminated newline text = through newline text ::
      terminated newline (text.drop (through newline text).length)
  | [b], _ => by
    rw [terminated, through]
    split_ifs
    · rfl
    · rfl
  | b :: c :: text, _ => by
    rw [terminated, through]
    split_ifs
    · rfl
    · rw [terminated_eq (cons_ne_nil c text)]
      rfl

theorem readLine_closed (hs : r.inner.Steady) (hends : r.inner.ending = .closed) :
    ∃ r', readLine r = (r', Utf8.decode (through newline r.bytes)) ∧ r'.inner.Steady ∧
      r'.inner.ending = .closed ∧ r'.bytes = r.bytes.drop (through newline r.bytes).length := by
  have hspec := BufReader.readUntil_spec newline r hs
  rw [if_pos (.inr hends)] at hspec
  obtain ⟨r', hread, htakes⟩ := hspec
  refine ⟨r', ?_, htakes.steady, htakes.ending.trans hends, ?_⟩
  · rw [readLine, hread]
  · have hdrop := congrArg (List.drop (through newline r.bytes).length) htakes.bytes
    rw [drop_left] at hdrop
    exact hdrop.symm

theorem blank_nil : Blank [] := rfl

/-- **What a closed connection brought is read line by line to its end.** -/
theorem readHeaders_closed (hs : r.inner.Steady) (hends : r.inner.ending = .closed) :
    ∃ r', readHeaders r n = (r', lengthIn (terminated newline r.bytes) n) ∧ r'.inner.Steady ∧
      r'.inner.ending = .closed := by
  induction hlen : r.bytes.length using Nat.strongRecOn generalizing r n with
  | _ k ih =>
    subst hlen
    obtain ⟨r', hread, hs', hends', hrest⟩ := readLine_closed hs hends
    by_cases hnil : r.bytes = []
    · rw [hnil, show through newline [] = Utf8.encode [] from rfl, Utf8.decode_encode] at hread
      refine ⟨r', ?_, hs', hends'⟩
      rw [readHeaders_of_some hread, if_pos blank_nil, hnil]
      rfl
    · rw [terminated_eq hnil, lengthIn, ← hrest]
      cases hdecode : Utf8.decode (through newline r.bytes) with
      | none =>
        rw [hdecode] at hread
        exact ⟨r', readHeaders_of_none hread, hs', hends'⟩
      | some header =>
        rw [hdecode] at hread
        rw [readHeaders_of_some hread]
        dsimp only
        split_ifs
        · exact ⟨r', rfl, hs', hends'⟩
        · refine ih _ ?_ hs' hends' rfl
          rw [hrest, length_drop]
          have hpos := length_pos_iff.mpr (through_ne_nil newline hnil)
          have hle := (through_begins newline r.bytes).length_le
          omega

/-! ### What is handled -/

variable {s : ByteStream}

theorem command_of_read {requestLine : List Char} {r₁ r₂ : BufReader}
    (hline : readLine ⟨[], s⟩ = (r₁, some requestLine)) (hcommand : (routeOf requestLine).IsCommand)
    (hheaders : readHeaders r₁ 0 = (r₂, some n)) :
    (handleConnection s).commands = if n > MAX_BODY then [] else
      ((r₂.read n).2.map (fun got => got ++ List.replicate (n - got.length) 0)).toList := by
  rw [handleConnection, hline]
  dsimp only
  rw [hheaders]
  dsimp only
  rw [if_pos hcommand]
  split_ifs
  · rfl
  · cases (r₂.read n).2 with
    | none => rfl
    | some got => rfl

theorem other_of_route {requestLine : List Char} {r₁ : BufReader}
    (hline : readLine ⟨[], s⟩ = (r₁, some requestLine)) (hcommand : ¬ (routeOf requestLine).IsCommand) :
    (handleConnection s).commands = [] := by
  rw [handleConnection, hline]
  dsimp only
  split
  · rfl
  · rw [if_neg hcommand]
    split_ifs
    · rfl
    · rfl
    · rfl

/-- **A closed connection**: a command is handled exactly when what came reads as one. -/
theorem commands_closed_iff (hs : s.Steady) (hends : s.ending = .closed) :
    (handleConnection s).commands = [] ↔ commandIn s.bytes = none := by
  obtain ⟨r₁, hread, hs₁, hends₁, hrest⟩ := readLine_closed (r := ⟨[], s⟩) hs hends
  rw [show (⟨[], s⟩ : BufReader).bytes = s.bytes from rfl] at hread hrest
  by_cases hnil : s.bytes = []
  · rw [hnil, show through newline [] = Utf8.encode [] from rfl, Utf8.decode_encode] at hread
    rw [other_of_route hread (by decide), hnil]
    exact iff_of_true rfl rfl
  · rw [commandIn, terminated_eq hnil, ← hrest]
    dsimp only
    cases hdecode : Utf8.decode (through newline s.bytes) with
    | none =>
      rw [hdecode] at hread
      rw [handleConnection, hread]
      exact iff_of_true rfl rfl
    | some requestLine =>
      rw [hdecode] at hread
      dsimp only
      by_cases hcommand : (routeOf requestLine).IsCommand
      · rw [if_pos hcommand]
        obtain ⟨r₂, hheaders, hs₂, hends₂⟩ := readHeaders_closed (n := 0) hs₁ hends₁
        cases hlength : lengthIn (terminated newline r₁.bytes) 0 with
        | none =>
          rw [hlength] at hheaders
          rw [handleConnection, hread]
          dsimp only
          rw [hheaders]
          exact iff_of_true rfl rfl
        | some n =>
          rw [hlength] at hheaders
          rw [command_of_read hread hcommand hheaders, Option.filter_some]
          rcases BufReader.read_spec hs₂ n with ⟨-, hfails, -⟩ | ⟨hgot, -⟩
          · cases hends₂.symm.trans hfails
          · rw [hgot]
            by_cases hmax : n ≤ MAX_BODY
            · rw [if_neg (Nat.not_lt.mpr hmax), if_pos (decide_eq_true hmax)]
              exact iff_of_false (cons_ne_nil _ _) (Option.some_ne_none n)
            · rw [if_pos (Nat.not_le.mp hmax), if_neg (fun h => hmax (of_decide_eq_true h))]
              exact iff_of_true rfl rfl
      · rw [other_of_route hread hcommand, if_neg hcommand]
        exact iff_of_true rfl rfl

/-- **The head is read the same however it is cut**, and of the body what is on hand after it. -/
theorem handleConnection_head (q : Request) (htext : q.IsText) (hs : s.Steady)
    (hbytes : s.bytes = q.head ++ rest) :
    (handleConnection s).commands =
      if rest = [] ∧ s.ending = .fails then [] else
        [rest.take (min q.body.length (onHand s.chunks q.head.length)) ++ List.replicate (q.body.length -
          (rest.take (min q.body.length (onHand s.chunks q.head.length))).length) 0] := by
  obtain ⟨text, hdecode, hcommand⟩ := q.isCommand
  rw [Request.head, append_assoc] at hbytes
  obtain ⟨r₁, hread, hline⟩ := readLine_of_line (r := ⟨[], s⟩) hs q.first hbytes
  rw [hdecode] at hread
  have hrest₁ := append_cancel_left (hline.bytes.symm.trans hbytes)
  obtain ⟨r₂, hheaders, hhead⟩ := readHeaders_of_lines (n := 0) q.last hline.steady q.lines htext hrest₁
  have hrest₂ := append_cancel_left (hhead.bytes.symm.trans hrest₁)
  have hends : r₂.inner.ending = s.ending := hhead.ending.trans hline.ending
  have hhand : r₂.onHand 0 = onHand s.chunks q.head.length := (hline.trans hhead).onHand 0
  rw [q.announces] at hheaders
  rw [command_of_read hread hcommand hheaders, if_neg (Nat.not_lt.mpr q.bounded)]
  rcases BufReader.read_spec hhead.steady q.body.length with ⟨hempty, hfails, hgot⟩ | ⟨hgot, hclosed⟩
  · rw [hgot, if_pos ⟨hrest₂.symm.trans hempty, hends.symm.trans hfails⟩]
    rfl
  · rw [hgot, if_neg (fun h => ?_), hrest₂, hhand]
    · rfl
    · cases (hends.trans h.2).symm.trans (hclosed (hrest₂.trans h.1))

/-- **A head that is no text, or that a failing connection does not bring to its end, is no command.** -/
theorem commands_eq_nil (q : Request) (hs : s.Steady) (hbegins : s.bytes <+: q.head ++ rest)
    (hthere : q.head.length ≤ s.bytes.length ∨ s.ending = .fails)
    (hbad : ¬ q.IsText ∨ s.bytes.length < q.head.length) : (handleConnection s).commands = [] := by
  rw [Request.head] at hbegins hthere hbad
  rw [append_assoc] at hbegins
  rcases Nat.lt_or_ge s.bytes.length q.requestLine.length with hlt | hge
  · have hends : s.ending = .fails := by
      refine hthere.resolve_left (Nat.not_le.mpr ?_)
      rw [length_append]
      exact Nat.lt_add_right _ hlt
    have hread := readLine_of_short (r := ⟨[], s⟩) hs hends q.first hbegins hlt
    rw [handleConnection, show readLine ⟨[], s⟩ = (_, none) from Prod.ext rfl hread]
    rfl
  · obtain ⟨text, hdecode, -⟩ := q.isCommand
    obtain ⟨b', hbytes, hbegins'⟩ := exists_of_prefix hbegins hge
    obtain ⟨r₁, hread, hline⟩ := readLine_of_line (r := ⟨[], s⟩) hs q.first hbytes
    have hrest : r₁.bytes = b' := append_cancel_left (hline.bytes.symm.trans hbytes)
    rw [hbytes, ← hrest, length_append_le_iff] at hthere
    rw [hbytes, ← hrest, length_append_lt_iff] at hbad
    have hheaders : (readHeaders r₁ 0).2 = none := by
      refine readHeaders_eq_none q.last.1 hline.steady q.lines (hrest ▸ hbegins')
        (hthere.imp_right hline.ending.trans) (hbad.imp_left fun htext => ?_)
      rw [Request.IsText] at htext
      push Not at htext
      exact htext
    rw [hdecode] at hread
    rw [handleConnection, hread]
    dsimp only
    rw [show readHeaders r₁ 0 = (_, none) from Prod.ext rfl hheaders]
    rfl

theorem padded_eq_iff (l : List UInt8) (k : Nat) :
    l.take k ++ List.replicate (l.length - (l.take k).length) 0 = l ↔ ∀ b ∈ l.drop k, b = 0 := by
  have hlen : l.length - (l.take k).length = (l.drop k).length := by
    rw [length_take, length_drop]
    omega
  conv_lhs =>
    rhs
    rw [← take_append_drop k l]
  rw [hlen, append_cancel_left_eq, eq_comm, eq_replicate_iff]
  exact and_iff_right rfl

/-- **A command and how it is delivered.**  When the whole of it arrives, its body is what is handled
exactly if its headers are text, if the bytes that the one read does not see are zeros, and, where there is
no body, if the connection does not end with a failure right after the head.  When it is cut off, nothing is
handled exactly if the connection is closed and what arrived reads as no command, or fails before the body
or with headers that are no text. -/
theorem command_delivered_iff (q : Request) (s : ByteStream) (hs : s.Steady) :
    (∀ rest, s.bytes = q.head ++ q.body ++ rest →
      ((handleConnection s).commands = [q.body] ↔
        q.IsText ∧ (∀ b ∈ q.body.drop (onHand s.chunks q.head.length), b = 0) ∧
          (q.body = [] → s.ending = .fails → rest ≠ []))) ∧
    (s.bytes <+: q.head ++ q.body → s.bytes ≠ q.head ++ q.body →
      ((handleConnection s).commands = [] ↔
        (s.ending = .closed → commandIn s.bytes = none) ∧
          (s.ending = .fails → q.IsText → s.bytes.length ≤ q.head.length))) := by
  constructor
  · intro rest hbytes
    rw [append_assoc] at hbytes
    by_cases htext : q.IsText
    · have htake : (q.body ++ rest).take (min q.body.length (onHand s.chunks q.head.length))
          = q.body.take (onHand s.chunks q.head.length) := by
        rw [take_append_of_le_length (Nat.min_le_left _ _), Nat.min_comm, ← take_eq_take_min]
      rw [handleConnection_head q htext hs hbytes, htake, and_iff_right htext]
      by_cases hfails : q.body ++ rest = [] ∧ s.ending = .fails
      · obtain ⟨hbody, hrest⟩ := append_eq_nil_iff.mp hfails.1
        rw [if_pos hfails]
        exact iff_of_false (fun h => by cases h) (fun h => h.2 hbody hfails.2 hrest)
      · rw [if_neg hfails, List.cons.injEq, and_iff_left rfl, padded_eq_iff]
        exact (and_iff_left fun hbody hends hrest =>
          hfails ⟨append_eq_nil_iff.mpr ⟨hbody, hrest⟩, hends⟩).symm
    · have hlen : q.head.length ≤ s.bytes.length := by
        rw [hbytes, length_append]
        exact Nat.le_add_right _ _
      have hbegins : s.bytes <+: q.head ++ (q.body ++ rest) := ⟨[], by rw [hbytes, append_nil]⟩
      rw [commands_eq_nil q hs hbegins (.inl hlen) (.inl htext)]
      exact iff_of_false (fun h => by cases h) (fun h => htext h.1)
  · intro hbegins hne
    cases hends : s.ending with
    | closed =>
      rw [commands_closed_iff hs hends]
      exact ⟨fun h => ⟨fun _ => h, fun hfails => by cases hfails⟩, fun h => h.1 rfl⟩
    | fails =>
      refine Iff.trans ?_ (and_iff_right (fun hclosed => by cases hclosed)).symm
      by_cases htext : q.IsText
      · rcases Nat.lt_or_ge s.bytes.length q.head.length with hlt | hge
        · exact iff_of_true (commands_eq_nil q hs hbegins (.inr hends) (.inr hlt))
            (fun _ _ => Nat.le_of_lt hlt)
        · obtain ⟨b', hbytes, -⟩ := exists_of_prefix hbegins hge
          rw [handleConnection_head q htext hs hbytes, hbytes, length_append]
          by_cases hb' : b' = []
          · rw [if_pos ⟨hb', hends⟩, hb']
            exact iff_of_true rfl (fun _ _ => Nat.le_refl _)
          · have hpos := length_pos_iff.mpr hb'
            rw [if_neg (fun h => hb' h.1)]
            exact iff_of_false (fun h => by cases h) (fun h => by have := h rfl htext; omega)
      · exact iff_of_true (commands_eq_nil q hs hbegins (.inr hends) (.inl htext))
          (fun _ h => absurd h htext)

theorem line_encode {text : List Char} (h : '\n' ∉ text) : Line (Utf8.encode (text ++ ['\n'])) :=
  ⟨Utf8.encode text, Utf8.newline_not_mem_encode h, Utf8.encode_append text ['\n']⟩

def ping : Request where
  requestLine := Utf8.encode ("POST /commands HTTP/1.1\r".toList ++ ['\n'])
  headers := [Utf8.encode ("Content-Length: 3\r".toList ++ ['\n'])]
  blank := Utf8.encode (['\r'] ++ ['\n'])
  body := [8, 1, 2]
  first := line_encode (by decide)
  lines l hl := by
    rw [List.mem_singleton.mp hl, Utf8.decode_encode]
    exact ⟨line_encode (by decide), fun header h => Option.some.inj h ▸ by decide⟩
  last := ⟨line_encode (by decide), _, Utf8.decode_encode _, by decide⟩
  isCommand := ⟨_, Utf8.decode_encode _, by decide⟩
  announces := by
    rw [List.foldl_cons, noted, Utf8.decode_encode]
    decide
  bounded := by decide

theorem isText_ping : ping.IsText := by
  intro l hl
  rw [mem_singleton.mp hl, Utf8.decode_encode]
  exact Option.some_ne_none _

/-- Delivered at once it is handled. -/
theorem command_delivered_ping :
    (handleConnection ⟨[ping.head ++ ping.body], .closed⟩).commands = [ping.body] := by
  refine ((command_delivered_iff ping ⟨[ping.head ++ ping.body], .closed⟩ ?_).1 [] rfl).mpr
    ⟨isText_ping, ?_, ?_⟩
  · exact fun c hc => mem_singleton.mp hc ▸ append_ne_nil_of_right_ne_nil _ (cons_ne_nil _ _)
  · exact fun b hb => by cases hb
  · exact fun h => by cases h

/-- Delivered in two pieces it is padded; and it is handled, all zeros, when the body never comes. -/
theorem command_padded :
    (handleConnection ⟨[ping.head ++ [8], [1, 2]], .closed⟩).commands = [[8, 0, 0]] ∧
      (handleConnection ⟨[ping.head], .closed⟩).commands = [[0, 0, 0]] := by
  have hpieces : ByteStream.Steady ⟨[ping.head ++ [8], [1, 2]], .closed⟩ ∧
      (⟨[ping.head ++ [8], [1, 2]], .closed⟩ : ByteStream).bytes = ping.head ++ [8, 1, 2] := by
    refine ⟨fun c hc => ?_, rfl⟩
    rcases mem_pair.mp hc with rfl | rfl
    · exact append_ne_nil_of_right_ne_nil _ (cons_ne_nil _ _)
    · exact cons_ne_nil _ _
  have hcut : ByteStream.Steady ⟨[ping.head], .closed⟩ ∧
      (⟨[ping.head], .closed⟩ : ByteStream).bytes = ping.head ++ [] := by
    refine ⟨fun c hc => ?_, rfl⟩
    rw [mem_singleton.mp hc]
    exact fun h => by cases h
  rw [handleConnection_head ping isText_ping hpieces.1 hpieces.2,
    handleConnection_head ping isText_ping hcut.1 hcut.2]
  exact ⟨rfl, rfl⟩

end Modbit.Daemon
