import Modbit.Lib.Text

/-!
# Hot-path compaction

`planCompaction` looks at a conversation that is over its token budget and returns
actions: old tool results to truncate, old blocks to summarise, and at last results of
the recent block to truncate.  Their indices are those of the conversation planned for.
`applyActions` is what the runtime does with them.

A text is the list of its characters, which is what the code counts and cuts.
-/

namespace Modbit

open Lib

namespace Compaction

abbrev Chars := List Char

/-! ### Manifests -/

inductive Label where
  | instruction | decision | approval | fact | resourceRef
  deriving DecidableEq

inductive Tier where
  | hot | warm | cold
  deriving DecidableEq

structure PreservedItem where
  label : Label
  text : Chars
  tier : Tier
  deriving DecidableEq

structure CompactionManifest where
  sourceHead : Nat
  preserved : List PreservedItem
  compressedProjection : Chars
  coldRefs : List Chars
  deriving DecidableEq

def coldId (index : Nat) : Chars := "cold-".toList ++ Nat.toDigits 10 index

def preserve : (Option Label × Chars) × Nat → Option PreservedItem
  | ((some .fact, text), _) => some ⟨.fact, text, .warm⟩
  | ((some .resourceRef, _), index) => some ⟨.resourceRef, coldId index, .cold⟩
  | ((some label, text), _) => some ⟨label, text, .hot⟩
  | ((none, _), _) => none

def compressed : Option Label → Bool
  | some .resourceRef | none => true
  | some _ => false

def CompactionManifest.build (sourceHead : Nat) (items : List (Option Label × Chars)) :
    CompactionManifest :=
  let warmLines := (items.filter (fun i => compressed i.1)).map
    (fun i => '[' :: i.2.take 40 ++ [']'])
  { sourceHead
    preserved := items.zipIdx.filterMap preserve
    compressedProjection := "compact head=".toList ++ Nat.toDigits 10 sourceHead
      ++ " items=".toList ++ Nat.toDigits 10 items.length ++ '\n' :: ['\n'].intercalate warmLines
    coldRefs := (items.zipIdx.filter (fun i => compressed i.1.1)).map (fun i => coldId i.2) }

/-! ### Items and actions -/

inductive ItemKind where
  | userTurn | assistantText | assistantToolCalls | toolResult
  deriving DecidableEq

structure ConversationItem where
  kind : ItemKind
  text : Chars
  deriving DecidableEq

def estimateTokens (text : Chars) : Nat := (text.length + 3) / 4

def ConversationItem.tokens (item : ConversationItem) : Nat := estimateTokens item.text

inductive CompactionAction where
  | truncateToolResult (index : Nat) (replacement : Chars)
  | summarizeBlock (start stop : Nat) (replacement : Chars)
  deriving DecidableEq

structure CompactionPlan where
  actions : List CompactionAction
  projectedTokens : Nat
  manifest : CompactionManifest
  deriving DecidableEq

def truncateKeepHead : Nat := 96

def truncateKeepTail : Nat := 64

def truncatedReplacement (original : Chars) : Chars :=
  if original.length ≤ truncateKeepHead + truncateKeepTail then original
  else
    let omitted := original.length - truncateKeepHead - truncateKeepTail
    original.take truncateKeepHead ++ "\n…[compacted: ~".toList ++ Nat.toDigits 10 omitted
      ++ " characters omitted]\n".toList ++ original.drop (original.length - truncateKeepTail)

def headLine (text : Chars) : Chars :=
  Text.trimChars (((Text.lines text).find? (fun l => Text.trimChars l ≠ [])).getD [])

/-! ### The recent block -/

/-- The loop of `recent_block_start`, over the items from the last on. -/
def recentFrom (len : Nat) : List (ConversationItem × Nat) → Nat → Nat
  | [], start => start
  | (item, index) :: rest, start =>
    match item.kind with
    | .toolResult => recentFrom len rest start
    | .assistantToolCalls => index
    | .userTurn | .assistantText => if start < len then start else recentFrom len rest start

def recentBlockStart (items : List ConversationItem) : Nat :=
  recentFrom items.length items.zipIdx.reverse items.length

/-! ### Planning -/

structure Draft where
  residual : List Nat
  actions : List CompactionAction
  summarized : List (Option Label × Chars)
  removed : List (Nat × Nat)

def Draft.current (d : Draft) : Nat := d.residual.sum

def inRemoved (removed : List (Nat × Nat)) (index : Nat) : Bool :=
  removed.any (fun r => r.1 ≤ index && index < r.2)

section Stages

variable (items : List ConversationItem) (budget : Nat)

def kindAt (index : Nat) : Option ItemKind := items[index]?.map (·.kind)

def textAt (index : Nat) : Chars := (items[index]?.map (·.text)).getD []

def truncateTurn (spared : Nat → Bool) (d : Draft) (index : Nat) : Draft :=
  if kindAt items index ≠ some .toolResult ∨ spared index ∨ inRemoved d.removed index then d
  else
    let replacement := truncatedReplacement (textAt items index)
    let after := estimateTokens replacement
    if d.residual.getD index 0 ≤ after then d
    else
      { d with
        residual := d.residual.set index after
        actions := d.actions ++ [.truncateToolResult index replacement]
        summarized := d.summarized ++
          [(none, "tool result truncated: ".toList ++ headLine (textAt items index))] }

/-- The loop of the first and of the last stage, over some indices. -/
def truncateStage (spared : Nat → Bool) : List Nat → Draft → Draft
  | [], d => d
  | index :: rest, d =>
    if d.current ≤ budget then d else truncateStage spared rest (truncateTurn items spared d index)

/-- The end of the block that starts at an assistant message. -/
def blockEnd (index : Nat) : Nat :=
  index + 1 + ((items.drop (index + 1)).takeWhile (fun i => i.kind = .toolResult)).length

/-- `items[start..stop]`. -/
def slice {α : Type} (l : List α) (start stop : Nat) : List α := (l.take stop).drop start

def epochLine (blockTokens : Nat) (projection : Chars) : Chars :=
  "[context epoch] ".toList ++ Nat.toDigits 10 1 ++ " tool-call block(s) compacted (".toList
    ++ Nat.toDigits 10 blockTokens ++ " estimated tokens): ".toList ++ projection

def blockSummary (index blockTokens : Nat) : Chars :=
  let block := slice items index (blockEnd items index)
  epochLine blockTokens (CompactionManifest.build block.length
    (block.map (fun i => (none, headLine i.text)))).compressedProjection

def summarizeTurn (d : Draft) (index : Nat) : Draft :=
  let stop := blockEnd items index
  let block := slice items index stop
  let blockTokens := (slice d.residual index stop).sum
  let replacement := blockSummary items index blockTokens
  let replacementTokens := estimateTokens replacement
  if blockTokens ≤ replacementTokens then d
  else
    { residual := (d.residual.mapIdx
        (fun i r => if index ≤ i ∧ i < stop then 0 else r)).set index replacementTokens
      actions := d.actions ++ [.summarizeBlock index stop replacement]
      summarized := d.summarized ++ block.map (fun i => (none, headLine i.text))
      removed := d.removed ++ [(index, stop)] }

/-- The loop of the second stage.  The index grows with every turn, so that the number
of items bounds the turns. -/
def summarizeStage (recent : Nat) : Nat → Nat → Draft → Draft
  | 0, _, d => d
  | fuel + 1, index, d =>
    if budget < d.current ∧ index < items.length then
      if kindAt items index ≠ some .assistantToolCalls ∨ inRemoved d.removed index
          ∨ recent ≤ index then
        summarizeStage recent fuel (index + 1) d
      else if recent < blockEnd items index then d
      else summarizeStage recent fuel (blockEnd items index) (summarizeTurn items d index)
    else d

def planCompaction : Option CompactionPlan :=
  let total := (items.map ConversationItem.tokens).sum
  if total ≤ budget then none
  else
    let recent := recentBlockStart items
    let start : Draft := ⟨items.map ConversationItem.tokens, [], [], []⟩
    let first := truncateStage items budget (fun i => recent ≤ i) (List.range items.length) start
    let second := summarizeStage items budget recent items.length 1 first
    let third := truncateStage items budget (fun _ => false)
      (List.range' recent (items.length - recent)) second
    if third.actions = [] then none
    else some
      { actions := third.actions
        projectedTokens := third.current
        manifest := CompactionManifest.build total third.summarized }

end Stages

/-! ### Applying a plan -/

inductive Role where
  | user | assistant | tool
  deriving DecidableEq

structure ToolCallData where
  callId : Chars
  name : Chars
  arguments : Chars
  deriving DecidableEq

structure ChatMessage where
  role : Role
  content : Chars
  toolCalls : List ToolCallData
  toolCallId : Option Chars
  isError : Bool
  deriving DecidableEq

def ChatMessage.user (content : Chars) : ChatMessage := ⟨.user, content, [], none, false⟩

def itemOf (m : ChatMessage) : ConversationItem where
  kind := match m.role with
    | .user => .userTurn
    | .assistant => if m.toolCalls = [] then .assistantText else .assistantToolCalls
    | .tool => .toolResult
  text := m.content

def applyAction (conversation : List ChatMessage) : CompactionAction → List ChatMessage
  | .truncateToolResult index replacement =>
    conversation.modify index
      (fun m => if m.role = .tool then { m with content := replacement } else m)
  | .summarizeBlock start stop replacement =>
    if start < stop ∧ stop ≤ conversation.length then
      conversation.take start ++ ChatMessage.user replacement :: conversation.drop stop
    else conversation

/-- The actions in reverse order, as the runtime applies them. -/
def applyActions (conversation : List ChatMessage) (actions : List CompactionAction) :
    List ChatMessage :=
  actions.reverse.foldl applyAction conversation

end Compaction

end Modbit
