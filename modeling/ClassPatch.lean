import ClassPatch.Artifact
import ClassPatch.Bytes.BigEndian
import ClassPatch.Bytes.Cursor
import ClassPatch.ClassFile.Basic
import ClassPatch.ClassFile.Edit
import ClassPatch.ClassFile.Format
import ClassPatch.Code.Assembler
import ClassPatch.Code.Attribute
import ClassPatch.Code.Decoder
import ClassPatch.Code.Disassembly
import ClassPatch.Code.Frame
import ClassPatch.Code.FrameTable
import ClassPatch.Code.Instruction
import ClassPatch.Code.LabelMap
import ClassPatch.Code.Layout
import ClassPatch.Code.Opcode
import ClassPatch.Code.TypedOpcode
import ClassPatch.ConstantPool.Basic
import ClassPatch.ConstantPool.Format
import ClassPatch.ConstantPool.Intern
import ClassPatch.Decimal.Shortest
import ClassPatch.Descriptor
import ClassPatch.Error
import ClassPatch.Font.NameTable
import ClassPatch.Headless.ElementCalls
import ClassPatch.Headless.FontCalls
import ClassPatch.Headless.ImageCalls
import ClassPatch.Headless.Keys
import ClassPatch.Host.Heap
import ClassPatch.Host.Registry
import ClassPatch.Host.Value
import ClassPatch.Image.PngHeader
import ClassPatch.MethodBody.Basic
import ClassPatch.MethodBody.Decode
import ClassPatch.MethodBody.Encode
import ClassPatch.MethodKey
import ClassPatch.Pipeline.Feature
import ClassPatch.Pipeline.Report
import ClassPatch.Pipeline.Run
import ClassPatch.Pipeline.Transformer
import ClassPatch.Preset
import ClassPatch.Proofs.Bytes.BigEndian
import ClassPatch.Proofs.Bytes.Bounds
import ClassPatch.Proofs.Bytes.Outcome
import ClassPatch.Proofs.Bytes.Reader
import ClassPatch.Proofs.Bytes.Script
import ClassPatch.Proofs.ClassFile.Confined
import ClassPatch.Proofs.ClassFile.Edit
import ClassPatch.Proofs.ClassFile.Failure
import ClassPatch.Proofs.ClassFile.Format
import ClassPatch.Proofs.ClassFile.Reached
import ClassPatch.Proofs.ClassFile.Storable
import ClassPatch.Proofs.Code.Assembly
import ClassPatch.Proofs.Code.Canonical
import ClassPatch.Proofs.Code.Decoder
import ClassPatch.Proofs.Code.Disassembly
import ClassPatch.Proofs.Code.Faults
import ClassPatch.Proofs.Code.FrameRoundTrip
import ClassPatch.Proofs.Code.FrameTable
import ClassPatch.Proofs.Code.Labels
import ClassPatch.Proofs.Code.Layout
import ClassPatch.Proofs.Code.LayoutReady
import ClassPatch.Proofs.Code.Rounds
import ClassPatch.Proofs.Code.Scan
import ClassPatch.Proofs.Code.ShortestFrames
import ClassPatch.Proofs.Code.Targets
import ClassPatch.Proofs.Code.Tiling
import ClassPatch.Proofs.Code.WrittenFrames
import ClassPatch.Proofs.ConstantPool.Count
import ClassPatch.Proofs.ConstantPool.Format
import ClassPatch.Proofs.ConstantPool.Intern
import ClassPatch.Proofs.ConstantPool.Regular
import ClassPatch.Proofs.ConstantPool.Requests
import ClassPatch.Proofs.ConstantPool.Steady
import ClassPatch.Proofs.Descriptor
import ClassPatch.Proofs.Font.NameTable
import ClassPatch.Proofs.Headless.FontCalls
import ClassPatch.Proofs.Host.Dispatch
import ClassPatch.Proofs.Host.Heap
import ClassPatch.Proofs.Host.Lifetime
import ClassPatch.Proofs.Host.Registry
import ClassPatch.Proofs.Machine.Action
import ClassPatch.Proofs.Machine.Basic
import ClassPatch.Proofs.Machine.Steps
import ClassPatch.Proofs.MethodBody.Canonical
import ClassPatch.Proofs.MethodBody.Decode
import ClassPatch.Proofs.MethodBody.Edited
import ClassPatch.Proofs.MethodBody.Encode
import ClassPatch.Proofs.MethodBody.Stored
import ClassPatch.Proofs.MethodBody.Tables
import ClassPatch.Proofs.MethodBody.Unedited
import ClassPatch.Proofs.MethodKey
import ClassPatch.Proofs.MethodKey.Identity
import ClassPatch.Proofs.Pipeline.Run
import ClassPatch.Proofs.Preservation
import ClassPatch.Proofs.Preset
import ClassPatch.Proofs.Redirect.Again
import ClassPatch.Proofs.Redirect.Blocks
import ClassPatch.Proofs.Redirect.Inject
import ClassPatch.Proofs.Redirect.Method
import ClassPatch.Proofs.Redirect.Nodes
import ClassPatch.Proofs.Redirect.Plan
import ClassPatch.Proofs.Redirect.Quiet
import ClassPatch.Proofs.Redirect.Run
import ClassPatch.Proofs.Rewrite.ConstantBody
import ClassPatch.Proofs.Rewrite.Contained
import ClassPatch.Proofs.Rewrite.NewBody
import ClassPatch.Proofs.Rewrite.Replay
import ClassPatch.Proofs.Rewrite.ReturnAtOnce
import ClassPatch.Proofs.Rewrite.Stored
import ClassPatch.Proofs.Signature.Grammar
import ClassPatch.Proofs.Signature.Misreading
import ClassPatch.Proofs.Signature.Reading
import ClassPatch.Proofs.Storage.FileTree
import ClassPatch.Proofs.Storage.Folder
import ClassPatch.Proofs.Storage.Path
import ClassPatch.Proofs.Storage.RoundTrip
import ClassPatch.Proofs.Success
import ClassPatch.Proofs.Text.ByteOrder
import ClassPatch.Proofs.Text.ModifiedUtf8
import ClassPatch.Proofs.Text.Utf16
import ClassPatch.Proofs.Text.Utf8
import ClassPatch.Proofs.TypeResolution
import ClassPatch.Rewrite.ConstantValue
import ClassPatch.Rewrite.Module
import ClassPatch.Rewrite.Redirect
import ClassPatch.Rewrite.ReplaceBody
import ClassPatch.Selection
import ClassPatch.Signature
import ClassPatch.Storage.FileTree
import ClassPatch.Storage.Folder
import ClassPatch.Storage.Path
import ClassPatch.Text.Hex
import ClassPatch.Text.ModifiedUtf8
import ClassPatch.Text.Printable
import ClassPatch.Text.Quoted
import ClassPatch.Text.Utf16
import ClassPatch.Text.Utf8
import ClassPatch.TypeResolution
