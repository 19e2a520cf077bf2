import MembershipCache.Alphabet
import MembershipCache.Automaton.Table
import MembershipCache.Cache.Revisable
import MembershipCache.Cache.UserEntry
import MembershipCache.Cache.WriteOnce
import MembershipCache.Event
import MembershipCache.Json.Codec
import MembershipCache.Json.Text
import MembershipCache.Json.Token
import MembershipCache.Node
import MembershipCache.NodeId
import MembershipCache.Proofs.Alphabet
import MembershipCache.Proofs.Automaton.Table
import MembershipCache.Proofs.Cache.AgeOrder
import MembershipCache.Proofs.Cache.Arbitration
import MembershipCache.Proofs.Cache.Arena
import MembershipCache.Proofs.Cache.Commutation
import MembershipCache.Proofs.Cache.Confirmation
import MembershipCache.Proofs.Cache.Effect
import MembershipCache.Proofs.Cache.EventLog
import MembershipCache.Proofs.Cache.Naming
import MembershipCache.Proofs.Cache.PrefixClosure
import MembershipCache.Proofs.Cache.Reachable
import MembershipCache.Proofs.Cache.Refused
import MembershipCache.Proofs.Cache.Reload
import MembershipCache.Proofs.Cache.Repair
import MembershipCache.Proofs.Cache.Replay
import MembershipCache.Proofs.Cache.Retention
import MembershipCache.Proofs.Cache.RevisableRun
import MembershipCache.Proofs.Cache.RoundRobin
import MembershipCache.Proofs.Cache.Snapshot
import MembershipCache.Proofs.Cache.Tandem
import MembershipCache.Proofs.Cache.UserAssertion
import MembershipCache.Proofs.Cache.WriteOnceMap
import MembershipCache.Proofs.Cache.WriteOnceRun
import MembershipCache.Proofs.CheckedAccess
import MembershipCache.Proofs.Dispute
import MembershipCache.Proofs.Exploration
import MembershipCache.Proofs.Json.RoundTrip
import MembershipCache.Proofs.Json.Token
import MembershipCache.Proofs.LevelOrder
import MembershipCache.Proofs.Node
import MembershipCache.Proofs.NodeRun
import MembershipCache.Proofs.Observation
import MembershipCache.Proofs.ProbeOrder
import MembershipCache.Proofs.ReadPaths
import MembershipCache.Proofs.Recency
import MembershipCache.Proofs.RecencyRun
import MembershipCache.Proofs.RedundantProbes
import MembershipCache.Proofs.Registration
import MembershipCache.Proofs.Run
import MembershipCache.Proofs.SeparatingWord
import MembershipCache.Proofs.Separation
import MembershipCache.Proofs.Text.Parts
import MembershipCache.Proofs.Text.Quoted
import MembershipCache.Proofs.Tree.FirstUse
import MembershipCache.Proofs.Tree.Growth
import MembershipCache.Proofs.Tree.Relabel
import MembershipCache.Proofs.Tree.Shape
import MembershipCache.Proofs.Tree.Shortlex
import MembershipCache.Proofs.Tree.Sketch
import MembershipCache.Proofs.Tree.Stretch
import MembershipCache.Proofs.Tree.Traversal
import MembershipCache.Proofs.UndefinedSteps
import MembershipCache.Proofs.Widening
import MembershipCache.Recency
import MembershipCache.Refusal
import MembershipCache.Reply
import MembershipCache.Separation
import MembershipCache.Text.GraphemeExtend
import MembershipCache.Text.Printable
import MembershipCache.Text.Quoted
import MembershipCache.TransitionSystem
import MembershipCache.Tree.Basic
import MembershipCache.Tree.Growth
import MembershipCache.Tree.View
import MembershipCache.Verdict
import MembershipCache.Word
import MembershipCache.Proofs.Cache.Outline
