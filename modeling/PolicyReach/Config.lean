import PolicyReach.Json.Printer
import PolicyReach.Json.Record
import PolicyReach.Text.Blank
import PolicyReach.Text.Decimal
import PolicyReach.Text.Keyword

/-!
# Configuration

Limits that turn runaway graphs and path enumerations into errors, and the sizing of the memo of
the domain-transition analysis. Environment variables replace single values; a value that is not
a number, after its blanks are trimmed, is ignored.
-/

namespace PolicyReach

/-- The sizing of a memo. -/
structure MemoConfig where
  entries : Nat := 4096
  enabled : Bool := true
  deriving DecidableEq

/-- The limits of an analysis session. -/
structure Config where
  /-- The most edges of a flow graph. -/
  maxGraphEdges : Nat := 4000000
  /-- The most queued candidates of a path enumeration. -/
  maxCandidates : Nat := 100000
  memo : MemoConfig := {}
  deriving DecidableEq

namespace MemoConfig

def toJson (c : MemoConfig) : Json :=
  .obj [("max_entries", .nat c.entries), ("enabled", .bool c.enabled)]

def ofJson? (v : Json) : Option MemoConfig := do
  let r ← v.record? [("max_entries", .required), ("enabled", .required)]
  some
    { entries := ← r.required "max_entries" Json.count
      enabled := ← r.required "enabled" Json.truth }

end MemoConfig

namespace Config

def toJson (c : Config) : Json :=
  .obj [("max_graph_edges", .nat c.maxGraphEdges),
    ("max_further_candidates", .nat c.maxCandidates), ("memo_cache", c.memo.toJson)]

def ofJson? (v : Json) : Option Config := do
  let r ← v.record? [("max_graph_edges", .required), ("max_further_candidates", .required),
    ("memo_cache", .required)]
  some
    { maxGraphEdges := ← r.required "max_graph_edges" Json.count
      maxCandidates := ← r.required "max_further_candidates" Json.count
      memo := ← r.required "memo_cache" MemoConfig.ofJson? }

/-- The fingerprint of the parameters. -/
def fingerprint (c : Config) : String := c.toJson.fingerprint

/-- The number in an environment variable. -/
def setting? (env : String → Option String) (name : String) : Option Nat :=
  (env name).bind fun v => Text.count? (Text.trim v.toList)

/-- The defaults with what the environment replaces; a memo of no entries is disabled. -/
def ofEnvironment (env : String → Option String) : Config :=
  let base : Config := {}
  { maxGraphEdges := (setting? env "SEPOLICY_MAX_GRAPH_EDGES").getD base.maxGraphEdges
    maxCandidates := (setting? env "SEPOLICY_MAX_FURTHER_CANDIDATES").getD base.maxCandidates
    memo :=
      match setting? env "SEPOLICY_MEMO_CACHE_ENTRIES" with
      | some n => { entries := n, enabled := 0 < n }
      | none => base.memo }

end Config

/-- How log events are written. -/
inductive LogFormat where
  | json
  | pretty
  deriving DecidableEq

namespace LogFormat

def keyword : LogFormat → String
  | .json => "json"
  | .pretty => "pretty"

/-- The format of a keyword. -/
def ofKeyword? (s : String) : Option LogFormat :=
  Text.choose? ([LogFormat.json, .pretty].map fun f => (f.keyword, f)) s

/-- The format the environment names, `json` if it names none. -/
def ofEnvironment (env : String → Option String) : LogFormat :=
  ((env "LOG_FORMAT").bind ofKeyword?).getD .json

end LogFormat

end PolicyReach
