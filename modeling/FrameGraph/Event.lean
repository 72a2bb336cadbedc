import FrameGraph.Behaviour.ScopeType
import FrameGraph.Decimal.Layout
import FrameGraph.Diagnostic
import FrameGraph.Text.Quoted
import FrameGraph.Timing.Profile

/-!
# Events

Everything that happens is written down in order. Some events are lines of the log, each at a level
of its own; the steps in the lives of nodes and scopes are written down too, but not logged.
-/
namespace FrameGraph

inductive LifeStep where
  | nodeSetUp (id : NodeId) (ok : Bool)
  | nodeUpdated (id : NodeId)
  | nodeDestroyed (id : NodeId)
  | scopeSetUp (id : ScopeId) (ok : Bool)
  | scopeDestroyed (id : ScopeId)
  deriving DecidableEq

inductive Event where
  | life (step : LifeStep)
  | remark (remark : Remark)
  | nodeTypeRegistered (name : String)
  | scopeTypeRegistered (name : String)
  | pluginRegistered (name : String)
  | loading (script : String)
  | scriptParsed (statements : Nat)
  | diagnosed (diagnostic : Diagnostic)
  | nodeCreated (path : String)
  | scopeCreated (path typeName : String)
  | connected (target slot source : String)
  | scriptApplied (nodes scopes connections : Nat)
  | cycleFound (nodes : List String)
  | inputUnconnected (node slot : String)
  | buildFailed (node message : String)
  | nodeReady (path : String)
  | scheduleBuilt (nodes : Nat)
  | scheduleReady (nodes : Nat)
  | frameTiming (frames : Nat) (timing : TimingSummary)
  | nodeTiming (timing : TimingSummary)
  | runFinished (frames : Nat)
  | scheduleTornDown (nodes : Nat)
  deriving DecidableEq

/-- How much a line of the log matters, the most important first. -/
inductive LogLevel where
  | error
  | warning
  | info
  | debug
  deriving DecidableEq, Repr

def LogLevel.name : LogLevel → String
  | error => "ERROR"
  | warning => "WARN"
  | info => "INFO"
  | debug => "DEBUG"

structure LogLine where
  level : LogLevel
  text : String
  deriving DecidableEq

def LogLine.render (l : LogLine) : String := l.level.name ++ " " ++ l.text

/-- The lines of a diagnostic: its message with code and line, and its hint. -/
def Diagnostic.logLines (d : Diagnostic) : List LogLine :=
  let level := match d.severity with
    | .error => LogLevel.error
    | .warning => LogLevel.warning
  let code := match d.code with
    | some c => s!" code={Text.quoted c}"
    | none => ""
  let line := match d.line with
    | some n => s!" line={n}"
    | none => ""
  let hint := match d.hint with
    | some h => [⟨.info, "  hint: " ++ h⟩]
    | none => []
  ⟨level, s!"{d.message}{code}{line}"⟩ :: hint

def Event.logLines : Event → List LogLine
  | life _ => []
  | remark (.note _) => []
  | remark (.windowOpened path width height) =>
    [⟨.debug, s!"window opened window={path} width={width} height={height}"⟩]
  | remark (.windowClosed path) => [⟨.debug, s!"window closed window={path}"⟩]
  | nodeTypeRegistered name => [⟨.debug, s!"node delegate registered delegate={name}"⟩]
  | scopeTypeRegistered name => [⟨.debug, s!"scope delegate registered delegate={name}"⟩]
  | pluginRegistered name => [⟨.debug, s!"plugin registered plugin={name}"⟩]
  | loading script => [⟨.info, s!"loading script={script}"⟩]
  | scriptParsed statements => [⟨.debug, s!"script parsed statements={statements}"⟩]
  | diagnosed d => d.logLines
  | nodeCreated path => [⟨.debug, s!"node instantiated node={path}"⟩]
  | scopeCreated path typeName =>
    [⟨.debug, s!"scope instantiated scope={path} delegate={typeName}"⟩]
  | connected target slot source =>
    [⟨.debug, s!"connected target={target} slot={slot} source={source}"⟩]
  | scriptApplied nodes scopes connections =>
    [⟨.debug, s!"script applied nodes={nodes} scopes={scopes} connections={connections}"⟩]
  | cycleFound nodes =>
    [⟨.error, s!"unresolvable dependency cycle nodes={Text.bracketed (nodes.map Text.quoted)}"⟩]
  | inputUnconnected node slot =>
    [⟨.error, s!"mandatory input not connected node={node} slot={slot}"⟩]
  | buildFailed node message => [⟨.error, s!"{message} node={node}"⟩]
  | nodeReady path => [⟨.debug, s!"node set up node={path}"⟩]
  | scheduleBuilt nodes => [⟨.debug, s!"graph built nodes={nodes}"⟩]
  | scheduleReady nodes => [⟨.info, s!"graph ready nodes={nodes}"⟩]
  | frameTiming frames t =>
    let mean := Decimal.toTenth t.mean
    let deviation := Decimal.toTenth t.deviation
    [⟨.info, s!"frame timing frames={frames} mean_us={mean} stddev_us={deviation}"⟩]
  | nodeTiming t =>
    let mean := Decimal.toTenth t.mean
    let deviation := Decimal.toTenth t.deviation
    let least := Decimal.toTenth t.least
    let greatest := Decimal.toTenth t.greatest
    [⟨.info, s!"node timing node={t.name} mean_us={mean} stddev_us={deviation} " ++
      s!"min_us={least} max_us={greatest}"⟩]
  | runFinished frames => [⟨.info, s!"run finished frames={frames}"⟩]
  | scheduleTornDown nodes => [⟨.debug, s!"graph torn down nodes={nodes}"⟩]

def Event.note? : Event → Option String
  | remark (.note text) => some text
  | _ => none

end FrameGraph
