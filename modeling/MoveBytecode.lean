import MoveBytecode.Main
import MoveBytecode.Workspace
import MoveBytecode.Proofs.Bytes
import MoveBytecode.Proofs.Reader
import MoveBytecode.Proofs.Reader.Primitive
import MoveBytecode.Proofs.Payload
import MoveBytecode.Proofs.Steps
import MoveBytecode.Proofs.Text
import MoveBytecode.Proofs.Display
import MoveBytecode.Proofs.Items
import MoveBytecode.Proofs.Tiling
import MoveBytecode.Proofs.Container
import MoveBytecode.Proofs.Module.Tables
import MoveBytecode.Proofs.Module.Layout
import MoveBytecode.Proofs.Module.RoundTrip
import MoveBytecode.Proofs.Module.Edits
import MoveBytecode.Proofs.Report
import MoveBytecode.Proofs.Module.Reachable
import MoveBytecode.Proofs.Grammar
import MoveBytecode.Proofs.Module.Acceptance
import MoveBytecode.Proofs.Module.Batch
import MoveBytecode.Proofs.Module.Cascade
import MoveBytecode.Proofs.Package.Edit
import MoveBytecode.Proofs.Json.Number
import MoveBytecode.Proofs.Json.Token
import MoveBytecode.Proofs.Json.Tree
import MoveBytecode.Proofs.Json.Value
import MoveBytecode.Proofs.Package.Text
import MoveBytecode.Proofs.Module.Delimited
import MoveBytecode.Proofs.Module.Names
import MoveBytecode.Proofs.Module.Replacement
import MoveBytecode.Proofs.Module.Independence
import MoveBytecode.Proofs.Module.Rename
import MoveBytecode.Proofs.Module.SelfRename
import MoveBytecode.Proofs.Module.Idempotence
import MoveBytecode.Proofs.Package.RoundTrip
import MoveBytecode.Proofs.Base64
import MoveBytecode.Proofs.Module.Handle
import MoveBytecode.Proofs.Command.Files
import MoveBytecode.Proofs.Command.Effects
import MoveBytecode.Proofs.Command.Verify
import MoveBytecode.Proofs.Module.RenameOrder
import MoveBytecode.Proofs.Module.SelfName
import MoveBytecode.Proofs.Package.Unedited
import MoveBytecode.Proofs.Module.Fault
import MoveBytecode.Proofs.Digits
import MoveBytecode.Proofs.Address
import MoveBytecode.Proofs.Package.Dependencies
import MoveBytecode.Proofs.Module.Integers
import MoveBytecode.Proofs.ByteStrings
import MoveBytecode.Proofs.Labels
import MoveBytecode.Proofs.Reader.Number
import MoveBytecode.Proofs.Reader.Place
import MoveBytecode.Proofs.Module.Place
import MoveBytecode.Proofs.Reader.Script
import MoveBytecode.Proofs.Config
import MoveBytecode.Proofs.Tag
import MoveBytecode.Proofs.Slices
