import Beamline.Binary64.Magnitude
import Beamline.Binary64.Basic
import Beamline.Binary64.Bits
import Beamline.Binary64.Shortest
import Beamline.Binary64.Literal
import Beamline.Text.Digit
import Beamline.Text.Utf8
import Beamline.Text.Blank
import Beamline.Csv.Record
import Beamline.Shape
import Beamline.Npy.Literal
import Beamline.Npy.Element
import Beamline.Npy.Header
import Beamline.Npy.Array
import Beamline.Beam.Cube
import Beamline.Failure
import Beamline.Arithmetic
import Beamline.Beam.Distribution
import Beamline.Beam.Histogram
import Beamline.Beam.Table
import Beamline.Beam.StepSeries
import Beamline.Figure.Style
import Beamline.Figure.Scatter
import Beamline.Figure.Comparison
import Beamline.Figure.Panel
import Beamline.Figure.Png
import Beamline.Event
import Beamline.Toml.Token
import Beamline.Toml.Value
import Beamline.Toml.Document
import Beamline.Settings
import Beamline.Storage.Path
import Beamline.Storage.Location
import Beamline.Storage.Tree
import Beamline.Storage.Files
import Beamline.Run.Load
import Beamline.Run.Action
import Beamline.Run.Steps
import Beamline.Run.Comparison
import Beamline.CommandLine
import Beamline.Main
import Beamline.Proofs.Binary64.Exact
import Beamline.Proofs.Binary64.Formats
import Beamline.Proofs.Npy.Reading
import Beamline.Proofs.Npy.Element
import Beamline.Proofs.StepSeries.Dispatch
import Beamline.Proofs.Npy.Description
import Beamline.Proofs.Text.Utf8
import Beamline.Proofs.Npy.File
import Beamline.Proofs.StepSeries.Layout
import Beamline.Proofs.StepSeries.Encodings
import Beamline.Proofs.Text.Blank
import Beamline.Proofs.Table.Records
import Beamline.Proofs.Table.Acceptance
import Beamline.Proofs.Csv.Writing
import Beamline.Proofs.Binary64.Literal
import Beamline.Proofs.Table.Writing
import Beamline.Proofs.Binary64.Shortest
import Beamline.Proofs.Binary64.Text
import Beamline.Proofs.StepSeries.Echo
import Beamline.Proofs.StepSeries.Shape
import Beamline.Proofs.Storage.Path
import Beamline.Proofs.Storage.Following
import Beamline.Proofs.Storage.Changes
import Beamline.Proofs.Binary64.Words
import Beamline.Proofs.Comparison.Inputs
import Beamline.Proofs.Npy.Vector
import Beamline.Proofs.Comparison.Saved
import Beamline.Proofs.Histogram.Exact
import Beamline.Proofs.Histogram.Extended
import Beamline.Proofs.Histogram.Reordering
import Beamline.Proofs.Histogram.Usable
import Beamline.Proofs.Histogram.Agreement
import Beamline.Proofs.Figure.Picture
import Beamline.Proofs.Run.Steps
import Beamline.Proofs.Comparison.Frame
import Beamline.Proofs.Figure.Points
import Beamline.Proofs.Figure.Axis
import Beamline.Proofs.Figure.Extent
import Beamline.Proofs.Binary64.Factor
import Beamline.Proofs.Figure.Pixels
import Beamline.Proofs.Figure.Sizes
import Beamline.Proofs.Distribution.Mean
import Beamline.Proofs.Distribution.Uniform
import Beamline.Proofs.Distribution.Exact
import Beamline.Proofs.Distribution.Symmetry
import Beamline.Proofs.Comparison.Separation
import Beamline.Proofs.Binary64.Negation
import Beamline.Proofs.Comparison.Slip
import Beamline.Proofs.Run.Effect
import Beamline.Proofs.Run.Repetition
import Beamline.Proofs.Run.Independence
import Beamline.Proofs.Run.CommandLine
import Beamline.Proofs.Toml.Entries
import Beamline.Proofs.Toml.Number
import Beamline.Proofs.Toml.Token
import Beamline.Proofs.Toml.Value
import Beamline.Proofs.Toml.Document
import Beamline.Proofs.Toml.Tables
import Beamline.Proofs.Toml.Sections
import Beamline.Proofs.Settings.Fields
import Beamline.Proofs.Settings.Loading
import Beamline.Proofs.Toml.Writing
import Beamline.Proofs.Settings.Writing
